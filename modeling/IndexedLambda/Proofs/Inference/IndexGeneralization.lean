import IndexedLambda.Proofs.Inference.Environment
import IndexedLambda.Proofs.Inference.Fresh
import IndexedLambda.Proofs.Term.FreeSubstitution
import IndexedLambda.Proofs.Types.Indexing
import Mathlib.Data.List.Nodup
/-!
# Generalising an index

A dependent instance is generalised over its type variables and over the variables at the end of its
index. For type variables Γ is consulted, for index variables it is not: every variable at the end
of the index is bound, and each place in the index gets a variable of its own when the type is
opened again.

So the opened type is not always an instance of the type that was generalised. It is one if the
variables at the end of the index are found nowhere else, neither in the type nor in Γ
(`Inference.Separate`). Otherwise it is none, in the sense of `Inference.Specializes`: it does not
come out of the type by a substitution that leaves Γ alone. `Inference.instantiate_generalize` says
both.
-/

namespace IndexedLambda

/-! ## The end of an index -/

/-- The variables at the end of an index. -/
def trailing (index : List (Term × Monotype)) : List Variable :=
  (trailingVariables index).2.map (·.1)

/-- The index terms of a type that are not at the end of its index. -/
def otherTerms (params : List Monotype) (index : List (Term × Monotype)) : List Term :=
  (trailingVariables index).1.map (·.1) ++
    (params ++ index.map (·.2)).flatMap Monotype.indexTerms

theorem Body.arity_generalizeIndex (head : TypeConstant) (params : List Monotype)
    (index : List (Term × Monotype)) :
    (Body.generalizeIndex head params index).arity = (trailing index).length := by
  unfold generalizeIndex trailing
  split
  · rename_i kept h
    rw [h]
    rfl
  · rename_i kept first rest h
    rw [h]
    simp [arity, DependentType.binders]

/-- Opening a generalised index replaces the variables at its end. -/
theorem Body.openedBy_generalizeIndex (head : TypeConstant) (params : List Monotype)
    (index : List (Term × Monotype)) (terms : List Term) :
    (Body.generalizeIndex head params index).openedBy terms = .inst head params
      ((trailingVariables index).1 ++ terms.zip ((trailingVariables index).2.map (·.2))) := by
  have happend := trailingVariables_append index
  unfold generalizeIndex
  split
  · rename_i kept h
    rw [h] at happend ⊢
    simp only [List.map_nil, List.append_nil, List.zip_nil_right] at happend ⊢
    rw [happend]
    rfl
  · rename_i kept first rest h
    rw [h]
    rfl

/-! ## What Γ mentions -/

/-- The index terms of a type, those of the kinds of its binders included. -/
def Ty.indexTerms (y : Ty) : List Term :=
  match y.toPolytype.body with
  | .mono m => m.indexTerms
  | .dependent d => (Monotype.inst d.head (d.params ++ d.binders.map (·.2)) d.index).indexTerms

namespace Inference

/-- The type variable occurs free in Γ, as the classes have it. -/
def TypeInUse (s : Inference) (w : TypeVariable) : Prop :=
  ∃ x, ∃ j ∈ s.symbols.bindings x, ∃ v ∈ j.type.freeVariables,
    w ∈ (s.types.resolve (.var v)).occurrences

/-- The index variable occurs in Γ, as the classes have it: in an index term of a type, or in what a
free type variable stands for. -/
def IndexInUse (s : Inference) (w : Variable) : Prop :=
  ∃ x, ∃ j ∈ s.symbols.bindings x, (∃ t ∈ j.type.indexTerms, (s.types.findKind t).Uses w) ∨
    ∃ v ∈ j.type.freeVariables, ∃ t ∈ (s.types.resolve (.var v)).indexTerms, t.Uses w

/-- The second type comes out of the first by substitution, and nothing that Γ mentions is
replaced. -/
structure Specializes (s : Inference) (r m : Monotype) (σ : TypeVariable → Monotype)
    (ρ : Variable → Term) : Prop where
  eq : m = (r.mapIndex (Term.substFree ρ)).subst σ
  types : ∀ w, s.TypeInUse w → σ w = .var w
  terms : ∀ w, s.IndexInUse w → ρ w = .var w

/-- The variables at the end of the index are found nowhere else: not twice at the end, not
elsewhere in the type and not in Γ. -/
structure Separate (s : Inference) (params : List Monotype) (index : List (Term × Monotype)) :
    Prop where
  distinct : (trailing index).Nodup
  alone : ∀ v ∈ trailing index, ∀ t ∈ otherTerms params index, ¬t.Uses v
  unused : ∀ v ∈ trailing index, ¬s.IndexInUse v

variable {s : Inference} {t : Monotype} {head : TypeConstant} {params : List Monotype}
  {index : List (Term × Monotype)}

theorem mem_environment_of_typeInUse {w : TypeVariable} (h : s.TypeInUse w) :
    w ∈ s.environment := by
  obtain ⟨x, j, hj, v, hv, hw⟩ := h
  exact List.mem_flatMap.mpr ⟨j, SymbolTable.mem_judgments hj, List.mem_flatMap.mpr
    ⟨v, hv, Monotype.mem_freeVariables.mpr hw⟩⟩

/-- An instance is generalised to a polytype that binds no variable in use. -/
theorem generalize_inst (hr : s.types.resolve t = .inst head params index) :
    ∃ binders : List TypeVariable,
      (s.generalize t).toType = .poly ⟨binders, .generalizeIndex head params index⟩ ∧
      (binders.filter fun v => !v.isWildcard).length ≤ (s.types.resolve t).freeVariables.length ∧
      ∀ w, s.TypeInUse w → w ∉ binders.filter fun v => !v.isWildcard := by
  unfold generalize
  rw [hr]
  dsimp only
  generalize hvars : ((Monotype.inst head params index).freeVariables.filter fun v =>
    !s.environment.contains v) = vars
  cases vars with
  | nil =>
      have hnone : ([.wildcard] : List TypeVariable).filter (fun v => !v.isWildcard) = [] := by
        decide
      refine ⟨[.wildcard], rfl, ?_, fun w _ => ?_⟩
      · rw [hnone]
        exact Nat.zero_le _
      · rw [hnone]
        exact List.not_mem_nil
  | cons v vars =>
      refine ⟨v :: vars, rfl, ?_, fun w hw hmem => ?_⟩
      · calc ((v :: vars).filter fun v => !v.isWildcard).length ≤ (v :: vars).length :=
            List.length_filter_le _ _
          _ ≤ _ := by
            rw [← hvars]
            exact List.length_filter_le _ _
      · have hmem' := (List.mem_filter.mp hmem).1
        rw [← hvars, List.mem_filter] at hmem'
        simpa [mem_environment_of_typeInUse hw] using hmem'.2

/-- What comes out when an instance is generalised and opened again: the type with other variables
at the end of its index. -/
theorem instantiate_generalize_eq (hr : s.types.resolve t = .inst head params index)
    (htypes : s.types.nextVar + (s.types.resolve t).freeVariables.length < counterRange)
    (hterms : s.terms.nextVar + index.length < counterRange) :
    ∃ σ s', instantiate (s.generalize t).toType s = .ok ((Monotype.inst head params
        ((trailingVariables index).1 ++ (termSupply.next s.terms (trailing index).length).zip
          ((trailingVariables index).2.map (·.2)))).subst σ) s' ∧
      ∀ w, s.TypeInUse w → σ w = .var w := by
  obtain ⟨binders, htype, hlength, huse⟩ := generalize_inst hr
  rw [htype]
  generalize hy : Ty.poly ⟨binders, .generalizeIndex head params index⟩ = y
  have hbound : y.scheme.bound = binders.filter fun v => !v.isWildcard := by
    rw [← hy]
    rfl
  have hbody : y.toPolytype.body = .generalizeIndex head params index := by
    rw [← hy]
    rfl
  have htrailing : (trailing index).length ≤ index.length := by
    have hsplit := congrArg List.length (trailingVariables_append index)
    simp only [List.length_append, List.length_map] at hsplit
    rw [trailing, List.length_map]
    omega
  rcases instantiate_cases y s with hrun | ⟨s', -, -, hfull⟩
  · rw [Ty.openedBy, hbody, Body.arity_generalizeIndex, Body.openedBy_generalizeIndex] at hrun
    refine ⟨_, _, hrun, fun w hw => ?_⟩
    rw [Monotype.assign, hbound, lookup_zip_of_not_mem _ (huse w hw)]
    rfl
  · -- both counters have room for all the variables that can be asked for
    exfalso
    rw [hbound, hbody, Body.arity_generalizeIndex] at hfull
    omega

/-! ## When the opened type is an instance -/

/-- What the variables at the end of the index are replaced by. -/
def replacement (index : List (Term × Monotype)) (terms : List Term) (v : Variable) : Term :=
  (((trailing index).zip terms).lookup v).getD (.var v)

theorem map_lookup_zip {vs : List Variable} {terms : List Term} (hvs : vs.Nodup)
    (hlength : terms.length = vs.length) :
    (vs.map fun v => ((vs.zip terms).lookup v).getD (.var v)) = terms := by
  induction vs generalizing terms with
  | nil => exact (List.length_eq_zero_iff.mp hlength).symm
  | cons v vs ih =>
      cases terms with
      | nil => cases hlength
      | cons u terms =>
          obtain ⟨hv, hvs⟩ := List.nodup_cons.mp hvs
          have htail := ih hvs (Nat.succ.inj hlength)
          simp only [List.map_cons, List.zip_cons_cons, List.lookup_cons, beq_self_eq_true,
            Option.getD_some, List.cons.injEq, true_and]
          refine Eq.trans (List.map_congr_left fun w hw => ?_) htail
          have hne : w ≠ v := by
            rintro rfl
            exact hv hw
          rw [beq_false_of_ne hne]

theorem replacement_of_not_mem {terms : List Term} {v : Variable} (hv : v ∉ trailing index) :
    replacement index terms v = .var v := by
  have hlookup : ((trailing index).zip terms).lookup v = none := by
    rw [List.lookup_eq_none_iff]
    intro p hp
    have hp' := (List.of_mem_zip hp).1
    simp only [bne_iff_ne]
    rintro rfl
    exact hv hp'
  rw [replacement, hlookup]
  rfl

/-- Replacing the variables at the end of the index changes nothing else. -/
theorem Separate.mapIndex_replacement (h : s.Separate params index) {terms : List Term}
    (hlength : terms.length = (trailing index).length) :
    (Monotype.inst head params index).mapIndex (Term.substFree (replacement index terms)) =
      .inst head params
        ((trailingVariables index).1 ++ terms.zip ((trailingVariables index).2.map (·.2))) := by
  have hother : ∀ t ∈ otherTerms params index, t.substFree (replacement index terms) = t := by
    intro t ht
    refine Term.substFree_eq_self_iff.mpr fun v huses => replacement_of_not_mem fun hv => ?_
    exact h.alone v hv t ht huses
  have hparams : ∀ p ∈ params, p.mapIndex (Term.substFree (replacement index terms)) = p := by
    intro p hp
    refine Monotype.mapIndex_eq_self fun t ht => hother t ?_
    exact List.mem_append_right _ (List.mem_flatMap.mpr ⟨p, List.mem_append_left _ hp, ht⟩)
  have hkinds : ∀ i ∈ index, i.2.mapIndex (Term.substFree (replacement index terms)) = i.2 := by
    intro i hi
    refine Monotype.mapIndex_eq_self fun t ht => hother t ?_
    exact List.mem_append_right _ (List.mem_flatMap.mpr
      ⟨i.2, List.mem_append_right _ (List.mem_map_of_mem hi), ht⟩)
  have hends : (trailing index).map (replacement index terms) = terms :=
    map_lookup_zip h.distinct hlength
  have hzip : terms.zip ((trailingVariables index).2.map (·.2)) =
      (trailingVariables index).2.map fun b => (replacement index terms b.1, b.2) := by
    conv_lhs => rw [← hends, trailing, List.map_map, List.zip_map']
    rfl
  rw [Monotype.mapIndex_inst, map_eq_self_iff.mpr hparams]
  congr 1
  calc index.map (fun i => (i.1.substFree (replacement index terms),
        i.2.mapIndex (Term.substFree (replacement index terms))))
      = index.map fun i => (i.1.substFree (replacement index terms), i.2) :=
        List.map_congr_left fun i hi => by rw [hkinds i hi]
    _ = ((trailingVariables index).1 ++
          (trailingVariables index).2.map (fun b => (Term.var b.1, b.2))).map
          fun i => (i.1.substFree (replacement index terms), i.2) := by
        rw [trailingVariables_append]
    _ = (trailingVariables index).1 ++ terms.zip ((trailingVariables index).2.map (·.2)) := by
        rw [List.map_append, List.map_map]
        congr 1
        · refine map_eq_self_iff.mpr fun i hi => ?_
          rw [hother i.1 (List.mem_append_left _ (List.mem_map_of_mem hi))]
        · rw [hzip]
          exact List.map_congr_left fun b _ => by simp [Term.substFree_var]

/-- Two types that come out of one, once with other index terms, tell that the index terms are the
same. -/
theorem indexTerms_of_subst_eq {f : Term → Term} {σ σ' : TypeVariable → Monotype} {m : Monotype}
    (h : (m.mapIndex f).subst σ' = m.subst σ) : ∀ t ∈ m.indexTerms, f t = t := by
  induction m using Monotype.induction_on with
  | var v => simp
  | const c => simp
  | app head params ih =>
      simp only [Monotype.mapIndex_app, Monotype.subst_app, Monotype.app.injEq, true_and,
        List.map_map, List.map_inj_left, Function.comp_apply] at h
      intro t ht
      obtain ⟨p, hp, ht⟩ := Monotype.mem_indexTerms_app.mp ht
      exact ih p hp (h p hp) t ht
  | inst head params index ihp ihk =>
      simp only [Monotype.mapIndex_inst, Monotype.subst_inst, Monotype.inst.injEq, true_and,
        List.map_map, List.map_inj_left, Function.comp_apply, Prod.mk.injEq] at h
      intro t ht
      rcases Monotype.mem_indexTerms_inst.mp ht with ⟨p, hp, ht⟩ | ⟨i, hi, rfl | ht⟩
      · exact ihp p hp (h.1 p hp) t ht
      · exact (h.2 i hi).1
      · exact ihk i hi (h.2 i hi).2 t ht

/-- The entries of a zipped list are compared component by component. -/
theorem of_zip_eq_map {σ : TypeVariable → Monotype} {terms : List Term}
    {ends : List (Variable × Monotype)} {f : Variable × Monotype → Term}
    {g : Variable × Monotype → Monotype} (hlength : terms.length = ends.length)
    (h : ((terms.zip (ends.map (·.2))).map fun j => (j.1, j.2.subst σ)) =
      ends.map fun b => (f b, g b)) :
    terms = ends.map f ∧ ∀ b ∈ ends, g b = b.2.subst σ := by
  induction ends generalizing terms with
  | nil => exact ⟨List.length_eq_zero_iff.mp hlength, by simp⟩
  | cons b ends ih =>
      cases terms with
      | nil => cases hlength
      | cons t terms =>
          simp only [List.map_cons, List.zip_cons_cons, List.cons.injEq, Prod.mk.injEq] at h
          obtain ⟨⟨rfl, hb⟩, hrest⟩ := h
          obtain ⟨rfl, hends⟩ := ih (Nat.succ.inj hlength) hrest
          exact ⟨rfl, List.forall_mem_cons.mpr ⟨hb.symm, hends⟩⟩

/-- What a substitution that gives the opened type does to the index. -/
theorem Specializes.ends {σ σ' : TypeVariable → Monotype} {ρ : Variable → Term} {terms : List Term}
    (h : s.Specializes (.inst head params index) ((Monotype.inst head params
      ((trailingVariables index).1 ++ terms.zip ((trailingVariables index).2.map (·.2)))).subst σ)
      σ' ρ) (hlength : terms.length = (trailing index).length) :
    (trailing index).map ρ = terms ∧ ∀ t ∈ otherTerms params index, t.substFree ρ = t := by
  have heq := h.eq
  have hsplit := trailingVariables_append index
  unfold trailing at hlength ⊢
  unfold otherTerms
  generalize (trailingVariables index).1 = kept at heq hsplit hlength ⊢
  generalize (trailingVariables index).2 = ends at heq hsplit hlength ⊢
  subst hsplit
  rw [List.length_map] at hlength
  simp only [Monotype.subst_inst, Monotype.mapIndex_inst, Monotype.inst.injEq, true_and,
    List.map_append, List.map_map] at heq
  obtain ⟨hparams, hindex⟩ := heq
  obtain ⟨hkept, hends⟩ := List.append_inj hindex (by simp)
  obtain ⟨hterms, hkinds⟩ : terms = (ends.map fun b => (Term.var b.1).substFree ρ) ∧
      ∀ b ∈ ends, (b.2.mapIndex (Term.substFree ρ)).subst σ' = b.2.subst σ :=
    of_zip_eq_map hlength hends
  simp only [List.map_inj_left, Function.comp_apply, Prod.mk.injEq] at hparams hkept
  simp only [Term.substFree_var] at hterms
  refine ⟨by rw [hterms, List.map_map]; rfl, fun t ht => ?_⟩
  rcases List.mem_append.mp ht with ht | ht
  · obtain ⟨i, hi, rfl⟩ := List.mem_map.mp ht
    exact (hkept i hi).1.symm
  · obtain ⟨m, hm, ht⟩ := List.mem_flatMap.mp ht
    have hsame : (m.mapIndex (Term.substFree ρ)).subst σ' = m.subst σ := by
      simp only [List.map_append, List.map_map, List.mem_append, List.mem_map,
        Function.comp_apply] at hm
      rcases hm with hm | ⟨i, hi, rfl⟩ | ⟨b, hb, rfl⟩
      · exact (hparams m hm).symm
      · exact (hkept i hi).2.symm
      · exact hkinds b hb
    exact indexTerms_of_subst_eq hsame t ht

/-- If the opened type is an instance then the variables at the end of the index were found nowhere
else, as long as none of them is taken for a fresh one. -/
theorem Specializes.separate {σ σ' : TypeVariable → Monotype} {ρ : Variable → Term}
    (hfresh : ∀ v ∈ trailing index, ∀ k, s.terms.nextVar ≤ k → v ≠ NameTable.numbered k)
    (h : s.Specializes (.inst head params index) ((Monotype.inst head params
      ((trailingVariables index).1 ++ (termSupply.next s.terms (trailing index).length).zip
        ((trailingVariables index).2.map (·.2)))).subst σ) σ' ρ) : s.Separate params index := by
  obtain ⟨hends, hother⟩ := h.ends (termSupply.length_next _ _)
  -- every variable at the end goes to a fresh one, which is another variable
  have hmoved : ∀ v ∈ trailing index, ρ v ≠ .var v := by
    intro v hv hρ
    have hmem : ρ v ∈ termSupply.next s.terms (trailing index).length := by
      rw [← hends]
      exact List.mem_map_of_mem hv
    obtain ⟨k, hk, hnumbered⟩ := List.mem_map.mp hmem
    have hle : s.terms.nextVar ≤ k := (List.mem_range'_1.mp hk).1
    exact hfresh v hv k hle (Term.var.inj (hρ.symm.trans hnumbered.symm))
  refine ⟨?_, fun v hv t ht huses => ?_, fun v hv huse => hmoved v hv (h.terms v huse)⟩
  · have hnodup : (termSupply.next s.terms (trailing index).length).Nodup := by
      refine List.Nodup.map (fun i j hij => ?_) List.nodup_range'
      exact NameTable.numbered_inj (Term.var.inj hij)
    rw [← hends] at hnodup
    exact List.Nodup.of_map ρ hnodup
  · exact hmoved v hv (Term.substFree_eq_self_iff.mp (hother t ht) v huses)

/-- **An instance, generalised and opened again.** What comes out is an instance of the type, by a
substitution that leaves alone whatever Γ mentions, if the variables at the end of its index are
found nowhere else. In every other case it is none, unless a variable at the end happens to be a
fresh one. -/
theorem instantiate_generalize (hr : s.types.resolve t = .inst head params index)
    (htypes : s.types.nextVar + (s.types.resolve t).freeVariables.length < counterRange)
    (hterms : s.terms.nextVar + index.length < counterRange) :
    ∃ m s', instantiate (s.generalize t).toType s = .ok m s' ∧
      (s.Separate params index → ∃ σ ρ, s.Specializes (s.types.resolve t) m σ ρ) ∧
      ((∀ v ∈ trailing index, ∀ k, s.terms.nextVar ≤ k → v ≠ NameTable.numbered k) →
        (∃ σ ρ, s.Specializes (s.types.resolve t) m σ ρ) → s.Separate params index) := by
  obtain ⟨σ, s', hrun, hσ⟩ := instantiate_generalize_eq hr htypes hterms
  refine ⟨_, s', hrun, fun hseparate => ?_, fun hfresh hspecial => ?_⟩
  · rw [hr]
    refine ⟨σ, replacement index (termSupply.next s.terms (trailing index).length), ?_, hσ, ?_⟩
    · rw [hseparate.mapIndex_replacement (termSupply.length_next _ _)]
    · intro w huse
      exact replacement_of_not_mem fun hw => hseparate.unused w hw huse
  · rw [hr] at hspecial
    obtain ⟨σ', ρ, h⟩ := hspecial
    exact h.separate hfresh

theorem mem_bindings_of_single {x z : String} {y : Ty} {j : Judgment}
    (h : j ∈ (SymbolTable.empty.add x y).bindings z) : j = ⟨.const x, y⟩ := by
  rw [SymbolTable.bindings_add] at h
  split at h
  · simpa using h
  · simp at h

/-- With `x: (Vec a; k)` in Γ the type `(Vec (a -> b); c n)` is generalised over `b` and `n`. -/
theorem instantiate_generalize_of_separate :
    let nat : Monotype := .plain "Nat"
    let vec (m : Monotype) (terms : List Term) : Monotype :=
      .inst (.plain "Vec") [m] (terms.map fun t => (t, nat))
    let a : Monotype := .named "a"
    let b : Monotype := .named "b"
    let s : Inference := { Inference.startingAt 0 0 with
      symbols := .add .empty "x" (.mono (vec a [.var (.unassigned "k")])) }
    let t := vec (.arrow a b) [.const "c", .var (.unassigned "n")]
    ∃ m s', instantiate (s.generalize t).toType s = .ok m s' ∧
      m = vec (.arrow a (.named "$0")) [.const "c", .var (.unassigned "$e0")] ∧
      ∃ σ ρ, s.Specializes t m σ ρ := by
  intro nat vec a b s t
  have hr : s.types.resolve t = t := by decide +kernel
  have hseparate : s.Separate [.arrow a b] [(.const "c", nat), (.var (.unassigned "n"), nat)] := by
    refine ⟨by decide +kernel, by decide +kernel, fun v hv huse => ?_⟩
    obtain ⟨x, j, hj, huses⟩ := huse
    obtain rfl := mem_bindings_of_single hj
    revert v
    decide +kernel
  obtain ⟨m, s', hrun, hinstance, -⟩ := instantiate_generalize hr (by decide +kernel)
    (by decide +kernel)
  have hspecial := hinstance hseparate
  rw [hr] at hspecial
  obtain ⟨s₁, hrun'⟩ : ∃ s₁, instantiate (s.generalize t).toType s =
      .ok (vec (.arrow a (.named "$0")) [.const "c", .var (.unassigned "$e0")]) s₁ :=
    ⟨_, eq_ok_of_run' (by decide +kernel)⟩
  exact ⟨m, s', hrun, (EStateM.Result.ok.inj (hrun.symm.trans hrun')).1, hspecial⟩

/-- With `v: (Array; n)` in Γ the same type is generalised over `n`, and the type that is opened
again has nothing to do with `n` any more. -/
theorem generalized_index_in_use :
    let uint : Monotype := .plain "Uint"
    let t : Monotype := .inst (.plain "Array") [] [(.var (.unassigned "n"), uint)]
    let s : Inference := { Inference.startingAt 0 0 with
      symbols := .add .empty "v" (.mono t) }
    ∃ m s', instantiate (s.generalize t).toType s = .ok m s' ∧
      m = .inst (.plain "Array") [] [(.var (.unassigned "$e0"), uint)] ∧
      ¬∃ σ ρ, s.Specializes (s.types.resolve t) m σ ρ := by
  intro uint t s
  have hr : s.types.resolve t = t := by decide +kernel
  obtain ⟨s', hrun⟩ : ∃ s', instantiate (s.generalize t).toType s =
      .ok (.inst (.plain "Array") [] [(.var (.unassigned "$e0"), uint)]) s' :=
    ⟨_, eq_ok_of_run' (by decide +kernel)⟩
  have huse : s.IndexInUse (.unassigned "n") := by
    refine ⟨"v", ⟨.const "v", .mono t⟩, ?_, by decide +kernel⟩
    simp [s, SymbolTable.bindings_add]
  refine ⟨_, s', hrun, rfl, ?_⟩
  rintro ⟨σ, ρ, h⟩
  -- the variable would have to stay, and to be replaced by the fresh one
  have hstays : ρ (.unassigned "n") = .var (.unassigned "n") := h.terms _ huse
  have heq := h.eq
  rw [hr] at heq
  simp only [t, Monotype.mapIndex_inst, Monotype.subst_inst, List.map_cons, Term.substFree_var,
    hstays, Monotype.inst.injEq, List.cons.injEq, Prod.mk.injEq, Term.var.injEq] at heq
  exact absurd heq.2.2.1.1 (by decide)

end Inference

end IndexedLambda
