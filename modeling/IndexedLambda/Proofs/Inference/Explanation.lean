import IndexedLambda.Proofs.Inference.Elaboration
import IndexedLambda.Proofs.Inference.OldVariables
import IndexedLambda.Proofs.Inference.Visible
/-!
# Contexts that a substitution explains

A derivation and a run of the rules each have a Γ of their own. `Inference.Explains` compares them
through a substitution for the type variables of the run. It solves the classes, it makes the types
of Γ at least as general as those of the derivation, and what it puts in for the free variables of Γ
is free in the Γ of the derivation.

There are three ways in which the context of a run changes, and a substitution for each of them.
Fresh variables can be given any meaning, since old variables keep theirs
(`Inference.exists_extension`). A parameter can be given any type
(`Inference.Ready.exists_parameter`). A definition is at least as general as in the derivation
(`Inference.Ready.define`): whatever Γ mentions goes to types without the variables that the
derivation binds there, so that they are not in the way.
-/

namespace IndexedLambda

/-! ## Schemes that are more general -/

namespace Scheme

/-- The instances of the second scheme are among those of the first one, whose free variables go
where the substitution sends them. -/
def Generalizes (p q : Scheme) (σ : TypeVariable → Monotype) : Prop :=
  ∀ m, q.Instance m → ∃ θ : TypeVariable → Monotype,
    (∀ v, p.Free v → θ v = σ v) ∧ (p.type.subst θ).Alike m

theorem Generalizes.congr {p q : Scheme} {σ σ' : TypeVariable → Monotype}
    (h : p.Generalizes q σ) (hagree : ∀ v, p.Free v → σ' v = σ v) : p.Generalizes q σ' := by
  intro m hm
  obtain ⟨θ, hθ, halike⟩ := h m hm
  exact ⟨θ, fun v hv => (hθ v hv).trans (hagree v hv).symm, halike⟩

theorem generalizes_self (p : Scheme) : p.Generalizes p .var := by
  rintro m ⟨τ, -, rfl⟩
  exact ⟨_, fun v hv => if_neg hv.2, rfl⟩

theorem generalizes_var (v : TypeVariable) (σ : TypeVariable → Monotype) :
    (Ty.mono (.var v)).scheme.Generalizes ⟨[], σ v⟩ σ := by
  rintro m ⟨τ, -, rfl⟩
  refine ⟨σ, fun _ _ => rfl, ?_⟩
  rw [Monotype.subst_eq_self fun w _ => if_neg List.not_mem_nil]
  rfl

end Scheme

theorem Monotype.Alike.arrow {a a' b b' : Monotype} (ha : a.Alike a') (hb : b.Alike b') :
    (Monotype.arrow a b).Alike (.arrow a' b') := by
  simp only [Monotype.Alike, Monotype.arrow, Monotype.skeleton_app, List.map_cons, List.map_nil]
  rw [ha, hb]

theorem Monotype.mem_occurrences_arrow {a b : Monotype} {v : TypeVariable} :
    v ∈ (Monotype.arrow a b).occurrences ↔ v ∈ a.occurrences ∨ v ∈ b.occurrences := by
  simp [Monotype.arrow]

/-! ## Contexts that a substitution explains -/

theorem SymbolTable.exists_of_mem_judgments {table : SymbolTable} {j : Judgment}
    (h : j ∈ table.judgments) : ∃ x, j ∈ table.bindings x := by
  obtain ⟨⟨x, js⟩, hmem, hj⟩ := List.mem_flatMap.mp h
  refine ⟨x, ?_⟩
  have hget : table.symbols[x]? = some js := Std.ExtTreeMap.mem_toList_iff_getElem?_eq_some.mp hmem
  rw [bindings, hget]
  exact List.mem_reverse.mp hj

theorem SymbolTable.get?_add (table : SymbolTable) (x z : String) (y : Ty) :
    (table.add x y).get? z = if x = z then some ⟨.const x, y⟩ else table.get? z := by
  unfold get?
  rw [bindings_add]
  split <;> rfl

theorem Ty.free_of_mem_freeVariables {y : Ty} (hy : y.scheme.type.isIndexFree = true)
    {v : TypeVariable} (hv : v ∈ y.freeVariables) : y.scheme.Free v := by
  cases y with
  | bare b =>
      cases b with
      | mono m => exact ⟨Monotype.mem_freeVariables.mp hv, List.not_mem_nil⟩
      | dependent d => cases hy
  | poly p =>
      obtain ⟨binders, b⟩ := p
      cases b with
      | dependent d => cases hy
      | mono m =>
          obtain ⟨hmem, hbinders⟩ := List.mem_filter.mp hv
          refine ⟨Monotype.mem_freeVariables.mp hmem, fun hbound => ?_⟩
          have hnot : v ∉ binders := by simpa using hbinders
          exact hnot (List.mem_filter.mp hbound).1

theorem Ty.openedBy_of_isIndexFree {y : Ty} (hy : y.scheme.type.isIndexFree = true)
    (types : List Monotype) (terms : List Term) :
    y.openedBy types terms = y.scheme.type.subst (.assign (y.scheme.bound.zip types)) := by
  rw [openedBy, Ty.body_of_isIndexFree hy]
  rfl

namespace Inference

variable {s s' : Inference} {Γ : List (String × Scheme)} {σ σ' : TypeVariable → Monotype}

theorem Tidy.exists_of_mem_environment (h : s.Tidy) {w : TypeVariable} (hw : w ∈ s.environment) :
    ∃ x, ∃ j ∈ s.symbols.bindings x, ∃ v, j.type.scheme.Free v ∧
      w ∈ (s.types.resolve (.var v)).occurrences := by
  obtain ⟨j, hj, hw⟩ := List.mem_flatMap.mp hw
  obtain ⟨v, hv, hw⟩ := List.mem_flatMap.mp hw
  obtain ⟨x, hx⟩ := SymbolTable.exists_of_mem_judgments hj
  exact ⟨x, j, hx, v, Ty.free_of_mem_freeVariables (h.symbols x j hx).indexFree hv,
    Monotype.mem_freeVariables.mp hw⟩

/-- What generalisation leaves free is mentioned by Γ. -/
theorem mem_environment_of_free {m : Monotype} (hm : (s.types.resolve m).Ordinary)
    {v : TypeVariable} (hv : (s.generalize m).toType.scheme.Free v) :
    v ∈ (s.types.resolve m).occurrences ∧ v ∈ s.environment := by
  rw [generalize_scheme hm] at hv
  obtain ⟨hoccurs, hbound⟩ := hv
  refine ⟨hoccurs, Decidable.not_not.mp fun hnot => hbound ?_⟩
  exact List.mem_filter.mpr ⟨Monotype.mem_freeVariables.mpr hoccurs, by simpa using hnot⟩

/-- The substitution gives the context a meaning in which it is at least as general as the Γ of a
derivation. -/
structure Explains (s : Inference) (σ : TypeVariable → Monotype) (Γ : List (String × Scheme)) :
    Prop where
  solves : s.types.Solves σ
  visible : ∀ x q, Γ.lookup x = some q →
    ∃ j, s.symbols.get? x = some j ∧ j.type.scheme.Generalizes q σ
  free : ∀ x, ∀ j ∈ s.symbols.bindings x, ∀ v, j.type.scheme.Free v →
    ∀ w ∈ (σ v).occurrences, ∃ entry ∈ Γ, entry.2.Free w

namespace Explains

/-- Only old variables have to keep their meaning. -/
theorem congr (h : s.Explains σ Γ) (hs : s.Numbered) (hagree : ∀ v, s.types.Old v → σ' v = σ v)
    (hsolves : s'.types.Solves σ')
    (hbindings : ∀ x, s'.symbols.bindings x = s.symbols.bindings x) : s'.Explains σ' Γ where
  solves := hsolves
  visible x q hx := by
    obtain ⟨j, hj, hq⟩ := h.visible x q hx
    refine ⟨j, (SymbolTable.get?_congr hbindings x).trans hj, hq.congr fun v hv => ?_⟩
    exact hagree v (hs.symbols x j (SymbolTable.mem_bindings_of_get? hj) v hv)
  free x j hj v hv := by
    rw [hbindings] at hj
    rw [hagree v (hs.symbols x j hj v hv)]
    exact h.free x j hj v hv

theorem add (h : s.Explains σ Γ) (hsolves : s'.types.Solves σ) {x : String} {y : Ty} {q : Scheme}
    (hsymbols : s'.symbols = s.symbols.add x y) (hq : y.scheme.Generalizes q σ)
    (hfree : ∀ v, y.scheme.Free v → ∀ w ∈ (σ v).occurrences,
      ∃ entry ∈ (x, q) :: Γ, entry.2.Free w) :
    s'.Explains σ ((x, q) :: Γ) where
  solves := hsolves
  visible z p hz := by
    rw [hsymbols, SymbolTable.get?_add]
    rw [List.lookup_cons] at hz
    by_cases hzx : z = x
    · rw [beq_iff_eq.mpr hzx] at hz
      cases hz
      exact ⟨_, if_pos hzx.symm, hq⟩
    · rw [beq_false_of_ne hzx] at hz
      rw [if_neg (Ne.symm hzx)]
      exact h.visible z p hz
  free z j hj v hv := by
    rw [hsymbols] at hj
    rcases SymbolTable.mem_bindings_add hj with ⟨-, rfl⟩ | hj
    · exact hfree v hv
    · intro w hw
      obtain ⟨entry, hentry, hwfree⟩ := h.free z j hj v hv w hw
      exact ⟨entry, List.mem_cons_of_mem _ hentry, hwfree⟩

/-- What Γ mentions, as the classes have it, goes to types with free variables of the derivation. -/
theorem free_of_mem_environment (h : s.Explains σ Γ) (hs : s.Tidy) {w : TypeVariable}
    (hw : w ∈ s.environment) : ∀ u ∈ (σ w).occurrences, ∃ entry ∈ Γ, entry.2.Free u := by
  intro u hu
  obtain ⟨x, j, hj, v, hv, hwv⟩ := hs.exists_of_mem_environment hw
  apply h.free x j hj v hv u
  have halike : ((s.types.resolve (.var v)).subst σ).Alike (σ v) :=
    h.solves.alike_resolve hs.types.toPlain (.var v)
  exact halike.mem_occurrences.mp (Monotype.mem_occurrences_subst.mpr ⟨w, hwv, hu⟩)

/-- A generalised type has all the instances that the derivation may use. They are instances by the
substitution with the types of the instance for the bound variables, which changes nothing for Γ. -/
theorem generalizes (h : s.Explains σ Γ) (hs : s.Tidy) {m a : Monotype} (hm : s.types.Usable m)
    (halike : (m.subst σ).Alike a) {vars : List TypeVariable}
    (hvars : ∀ v ∈ vars, ∀ entry ∈ Γ, ¬entry.2.Free v) :
    (s.generalize m).toType.scheme.Generalizes ⟨vars, a⟩ σ := by
  have hplain : TypeContext.Plain s.types := hs.types.toPlain
  have hordinary : (s.types.resolve m).Ordinary := hm.resolve hplain
  rintro n ⟨τ, -, rfl⟩
  refine ⟨fun w => (σ w).subst fun v => if v ∈ vars then τ v else .var v, fun w hw => ?_, ?_⟩
  · refine Monotype.subst_eq_self fun u hu => if_neg fun hmem => ?_
    obtain ⟨entry, hentry, hfree⟩ :=
      h.free_of_mem_environment hs (mem_environment_of_free hordinary hw).2 u hu
    exact hvars u hmem entry hentry hfree
  · have hresolved : ((s.types.resolve m).subst σ).Alike a :=
      (h.solves.alike_resolve hplain m).trans halike
    rw [generalize_scheme hordinary, ← Monotype.subst_subst]
    exact hresolved.subst _

end Explains

/-! ## Fresh variables -/

/-- Fresh variables can be given any meaning. -/
theorem exists_extension (s : Inference) (σ : TypeVariable → Monotype) (θ : Nat → Monotype) :
    ∃ σ' : TypeVariable → Monotype, (∀ v, s.types.Old v → σ' v = σ v) ∧
      ∀ i, σ' (s.types.numbered (s.types.nextVar + i)) = θ i := by
  classical
  refine ⟨fun w => if h : ∃ i, s.types.numbered (s.types.nextVar + i) = w then θ h.choose else σ w,
    fun w hw => dif_neg ?_, fun i => ?_⟩
  · rintro ⟨i, rfl⟩
    exact hw _ (Nat.le_add_right _ _) rfl
  · have h : ∃ k, s.types.numbered (s.types.nextVar + k) =
        s.types.numbered (s.types.nextVar + i) := ⟨i, rfl⟩
    have hi : h.choose = i := Nat.add_left_cancel (TypeContext.numbered_inj h.choose_spec)
    show (if h : _ then _ else _) = _
    rw [dif_pos h, hi]

/-- The variable that stands for a bound variable when a type is opened. -/
theorem assign_next (s : Inference) {vars : List TypeVariable} {v : TypeVariable} (hv : v ∈ vars) :
    Monotype.assign (vars.zip (typeSupply.next s vars.length)) v =
      .var (s.types.numbered (s.types.nextVar + vars.idxOf v)) := by
  induction vars generalizing s with
  | nil => cases hv
  | cons w vars ih =>
      rw [List.length_cons, Supply.next_succ, List.zip_cons_cons, Monotype.assign, List.lookup_cons,
        List.idxOf_cons]
      by_cases hvw : v = w
      · subst hvw
        simp only [beq_self_eq_true]
        rfl
      · have hrest := ih (drawTypes 1 s) ((List.mem_cons.mp hv).resolve_left hvw)
        have hnext : (drawTypes 1 s).types.nextVar + vars.idxOf v =
            s.types.nextVar + (vars.idxOf v + 1) := by
          show s.types.nextVar + 1 + vars.idxOf v = _
          omega
        rw [hnext] at hrest
        rw [beq_false_of_ne hvw, beq_false_of_ne (Ne.symm hvw)]
        exact hrest

/-- When a type is opened, each of its variables becomes one that is old from then on, and the fresh
ones among them can be given any meaning. -/
theorem exists_opening (s : Inference) {p : Scheme} {σ θ : TypeVariable → Monotype}
    (hold : ∀ v, p.Free v → s.types.Old v) (hθ : ∀ v, p.Free v → θ v = σ v) :
    ∃ σ' : TypeVariable → Monotype, (∀ v, s.types.Old v → σ' v = σ v) ∧
      ∀ v ∈ p.type.occurrences, ∃ w : TypeVariable,
        Monotype.assign (p.bound.zip (typeSupply.next s p.bound.length)) v = .var w ∧
        σ' w = θ v ∧ (drawTypes p.bound.length s).types.Old w := by
  have hbefore := s.before_drawTypes p.bound.length
  obtain ⟨σ', hagree, hfresh⟩ := s.exists_extension σ fun i => θ ((p.bound[i]?).getD .wildcard)
  refine ⟨σ', hagree, fun v hv => ?_⟩
  by_cases hbound : v ∈ p.bound
  · have hindex : p.bound.idxOf v < p.bound.length := List.idxOf_lt_length_of_mem hbound
    refine ⟨_, assign_next s hbound, ?_, hbefore.old_numbered (Nat.add_lt_add_left hindex _)⟩
    rw [hfresh, List.getElem?_eq_getElem hindex, List.getElem_idxOf]
    rfl
  · have hvold : s.types.Old v := hold v ⟨hv, hbound⟩
    refine ⟨v, ?_, (hagree v hvold).trans (hθ v ⟨hv, hbound⟩).symm, hbefore.old hvold⟩
    rw [Monotype.assign, lookup_zip_of_not_mem _ hbound]
    rfl

/-! ## Contexts between rules -/

/-- The context is as all statements about the rules need it. No record is kept, the classes can be
written, and so can Γ under a condition. -/
structure Ready (written : Prop) (s : Inference) : Prop where
  tidy : s.Tidy
  faithful : s.symbols.Faithful
  numbered : s.Numbered
  untraced : s.tracing = false
  legible : s.types.known.types.Throughout Monotype.Legible
  wellSplit : written → ∀ x, ∀ j ∈ s.symbols.bindings x, j.type.scheme.type.isWellSplit = true

variable {written : Prop}

theorem Ready.add (hs : s.Ready written) {x : String} {y : Ty}
    (hsymbols : s'.symbols = s.symbols.add x y) (hknown : s'.types.known = s.types.known)
    (hbefore : s.types.Before s'.types) (huntraced : s'.tracing = false) (hy : y.scheme.type.Ordinary)
    (hwritten : written → y.scheme.type.isWellSplit = true)
    (hold : ∀ v, y.scheme.Free v → s'.types.Old v) : s'.Ready written where
  tidy := hs.tidy.add hy hknown hsymbols
  faithful := hsymbols ▸ hs.faithful.add x y
  numbered := by
    refine ⟨hknown ▸ hs.numbered.classes.imp fun v hv => hbefore.old hv, fun z j hj v hv => ?_⟩
    rw [hsymbols] at hj
    rcases SymbolTable.mem_bindings_add hj with ⟨-, rfl⟩ | hj
    · exact hold v hv
    · exact hbefore.old (hs.numbered.symbols z j hj v hv)
  untraced := huntraced
  legible := hknown ▸ hs.legible
  wellSplit := by
    intro h z j hj
    rw [hsymbols] at hj
    rcases SymbolTable.mem_bindings_add hj with ⟨-, rfl⟩ | hj
    · exact hwritten h
    · exact hs.wellSplit h z j hj

/-- What the classes are bound to is well split. -/
theorem Ready.throughout (hs : s.Ready written) :
    s.types.known.types.Throughout (·.isWellSplit = true) :=
  fun key m hget => (hs.legible key m hget).isWellSplit (hs.tidy.types.indexFree.types key m hget)

/-- A parameter can be given any type. -/
theorem Ready.exists_parameter (hs : s.Ready written) (hσ : s.Explains σ Γ) {x : String}
    (hsymbols : s'.symbols = s.symbols.add x (.mono (.var (s.types.numbered s.types.nextVar))))
    (htypes : s'.types = (drawTypes 1 s).types) (huntraced : s'.tracing = false) (a : Monotype) :
    s'.Ready written ∧ ∃ σ', s'.Explains σ' ((x, ⟨[], a⟩) :: Γ) ∧
      (∀ v, s.types.Old v → σ' v = σ v) ∧ σ' (s.types.numbered s.types.nextVar) = a := by
  have hbefore : s.types.Before s'.types := htypes ▸ s.before_drawTypes 1
  have hknown : s'.types.known = s.types.known := by rw [htypes]; rfl
  obtain ⟨σ', hagree, hfresh⟩ := s.exists_extension σ fun _ => a
  have hv : σ' (s.types.numbered s.types.nextVar) = a := hfresh 0
  have hsolves : (drawTypes 1 s).types.Solves σ' :=
    hσ.solves.congr hs.numbered.classes hagree rfl
  have hvold : s'.types.Old (s.types.numbered s.types.nextVar) :=
    hbefore.old_numbered (by rw [htypes]; exact Nat.lt_succ_self _)
  have hnamed : (s.types.numbered s.types.nextVar).isWildcard = false := isWildcard_dollar _ _
  generalize s.types.numbered s.types.nextVar = v at *
  have honly : ∀ w, (Ty.mono (.var v)).scheme.Free w → w = v :=
    fun w hw => (Monotype.mem_occurrences_var v).mp hw.1
  refine ⟨hs.add hsymbols hknown hbefore huntraced (Monotype.ordinary_var hnamed) (fun _ => rfl)
    fun w hw => ?_, σ', ?_, hagree, hv⟩
  · rw [honly w hw]
    exact hvold
  · have hdrawn : (drawTypes 1 s).Explains σ' Γ :=
      hσ.congr hs.numbered hagree hsolves fun _ => rfl
    refine hdrawn.add (htypes ▸ hsolves) hsymbols (hv ▸ Scheme.generalizes_var v σ') ?_
    intro w hw u hu
    rw [honly w hw, hv] at hu
    exact ⟨(x, ⟨[], a⟩), List.mem_cons_self, hu, List.not_mem_nil⟩

/-- The equation of an application has a solution: its fresh result can be given the type that the
derivation has. -/
theorem Ready.exists_result (hs : s.Ready written) (hsolves : s.types.Solves σ) {m₀ m₁ a b : Monotype}
    (hold₀ : ∀ v ∈ m₀.occurrences, s.types.Old v) (hold₁ : ∀ v ∈ m₁.occurrences, s.types.Old v)
    (halike₀ : (m₀.subst σ).Alike (.arrow a b)) (halike₁ : (m₁.subst σ).Alike a) :
    ∃ σ' : TypeVariable → Monotype, (∀ v, s.types.Old v → σ' v = σ v) ∧
      (drawTypes 1 s).types.Solves σ' ∧ σ' (s.types.numbered s.types.nextVar) = b ∧
      (m₀.subst σ').Alike
        ((Monotype.arrow m₁ (.var (s.types.numbered s.types.nextVar))).subst σ') := by
  obtain ⟨σ', hagree, hfresh⟩ := s.exists_extension σ fun _ => b
  have hv : σ' (s.types.numbered s.types.nextVar) = b := hfresh 0
  refine ⟨σ', hagree, hsolves.congr hs.numbered.classes hagree rfl, hv, ?_⟩
  -- the premises mean what they meant
  have hm₀ : m₀.subst σ' = m₀.subst σ := Monotype.subst_congr fun w hw => hagree w (hold₀ w hw)
  have hm₁ : m₁.subst σ' = m₁.subst σ := Monotype.subst_congr fun w hw => hagree w (hold₁ w hw)
  rw [Monotype.subst_arrow, hm₀, hm₁, Monotype.subst_var, hv]
  have harrow : (Monotype.arrow (m₁.subst σ) b).Alike (.arrow a b) := halike₁.arrow rfl
  exact halike₀.trans harrow.symm

/-- A definition is at least as general as in the derivation. -/
theorem Ready.define (hs : s.Ready written) (hσ : s.Explains σ Γ) {x : String} {m a : Monotype}
    (hm : s.types.Usable m) (hwritten : written → m.isWellSplit = true)
    (hold : ∀ v ∈ m.occurrences, s.types.Old v) (halike : (m.subst σ).Alike a) {vars : List TypeVariable}
    (hvars : ∀ v ∈ vars, ∀ entry ∈ Γ, ¬entry.2.Free v)
    (hsymbols : s'.symbols = s.symbols.add x (s.generalize m).toType)
    (htypes : s'.types = s.types) (huntraced : s'.tracing = false) :
    s'.Ready written ∧ s'.Explains σ ((x, ⟨vars, a⟩) :: Γ) := by
  have hordinary : (s.types.resolve m).Ordinary := hm.resolve hs.tidy.types.toPlain
  have hresolved : ∀ v ∈ (s.types.resolve m).occurrences, s'.types.Old v := by
    rw [htypes]
    exact hs.numbered.classes.resolve hs.tidy.types.acyclic hold
  constructor
  · refine hs.add hsymbols (by rw [htypes]) (htypes ▸ .refl _) huntraced ?_ (fun h => ?_) fun v hv =>
      hresolved v (mem_environment_of_free hordinary hv).1
    · rw [generalize_scheme hordinary]
      exact hordinary
    · rw [generalize_scheme hordinary]
      exact TypeContext.throughout_resolve Monotype.pervasive_isWellSplit hs.throughout (hwritten h)
  · refine hσ.add (htypes ▸ hσ.solves) hsymbols (hσ.generalizes hs.tidy hm halike hvars) ?_
    intro v hv w hw
    obtain ⟨entry, hentry, hfree⟩ :=
      hσ.free_of_mem_environment hs.tidy (mem_environment_of_free hordinary hv).2 w hw
    exact ⟨entry, List.mem_cons_of_mem _ hentry, hfree⟩

/-- Names with closed types can be added to Γ on both sides. -/
theorem Ready.addAll {entries : List (String × Ty)} (hs : s.Ready written) (hσ : s.Explains .var Γ)
    (hentries : ∀ entry ∈ entries, entry.2.scheme.type.Ordinary)
    (hwritten : written → ∀ entry ∈ entries, entry.2.scheme.type.isWellSplit = true)
    (hclosed : ∀ entry ∈ entries, ∀ v, ¬entry.2.scheme.Free v) :
    ∃ s', addAll entries s = .ok () s' ∧ s'.Ready written ∧ s'.Explains .var
      ((entries.reverse.map fun entry => (entry.1, entry.2.scheme)) ++ Γ) := by
  induction entries generalizing s Γ with
  | nil => exact ⟨s, rfl, hs, hσ⟩
  | cons entry entries ih =>
      rw [List.forall_mem_cons] at hentries hclosed
      have hs₁ : Ready written { s with symbols := s.symbols.add entry.1 entry.2 } :=
        hs.add rfl rfl (.refl _) hs.untraced hentries.1 (fun h => hwritten h entry List.mem_cons_self)
          fun v hv => absurd hv (hclosed.1 v)
      have hσ₁ : Explains { s with symbols := s.symbols.add entry.1 entry.2 } .var
          ((entry.1, entry.2.scheme) :: Γ) := by
        refine hσ.add ?_ rfl (Scheme.generalizes_self _) fun v hv => absurd hv (hclosed.1 v)
        exact hσ.solves
      obtain ⟨s', hrun, hs', hσ'⟩ := ih hs₁ hσ₁ hentries.2
        (fun h entry' hentry' => hwritten h entry' (List.mem_cons_of_mem entry hentry')) hclosed.2
      refine ⟨s', hrun, hs', ?_⟩
      rw [List.reverse_cons, List.map_append, List.append_assoc]
      exact hσ'

theorem ready_startingAt (typeOffset termOffset : Nat) :
    (startingAt typeOffset termOffset).Ready written where
  tidy := tidy_startingAt typeOffset termOffset
  faithful := SymbolTable.Built.empty.faithful
  numbered := by
    refine ⟨fun v m hget => ?_, fun x j hj => ?_⟩
    · simp [startingAt, TypeContext.startingAt] at hget
    · rw [startingAt, SymbolTable.bindings_empty] at hj
      cases hj
  untraced := rfl
  legible key m hget := by simp [startingAt, TypeContext.startingAt] at hget
  wellSplit _ x j hj := by
    rw [startingAt, SymbolTable.bindings_empty] at hj
    cases hj

theorem explains_startingAt (typeOffset termOffset : Nat) :
    (startingAt typeOffset termOffset).Explains .var [] := by
  refine ⟨fun v m hget => ?_, fun x q hx => ?_, fun x j hj => ?_⟩
  · simp [startingAt, TypeContext.startingAt] at hget
  · cases hx
  · rw [startingAt, SymbolTable.bindings_empty] at hj
    cases hj

end Inference

end IndexedLambda
