import IndexedLambda.Proofs.Keys
import IndexedLambda.Proofs.Types.Substitution
import IndexedLambda.Types.Scheme
import Mathlib.Data.List.GetD
import Mathlib.Data.List.Nodup
/-!
# Equality of polytypes is alpha equivalence

Two polytypes are compared by putting the same placeholders in the place of their binders. The names
of the placeholders are searched for in the two bodies, so each comparison chooses its own, and three
polytypes are compared with three different choices.

The choice does not matter, because of what a body at distinct unused variables has to say: any types
that are put in for these variables afterwards end up where the binders were
(`Polytype.bodyAt_subst`). So polytypes that agree at one such choice agree at every list of types
whatever (`Polytype.alphaEq_iff`), and in this form reflexivity, symmetry and transitivity are those
of equality.
-/

namespace IndexedLambda

/-! ## Variables paired with types -/

/-- A variable goes to the type at its first place among the variables. -/
theorem Monotype.assign_zip {vars : List TypeVariable} {types : List Monotype}
    (hlength : types.length = vars.length) (v : TypeVariable) :
    assign (vars.zip types) v = types.getD (vars.idxOf v) (.var v) := by
  induction vars generalizing types with
  | nil =>
      obtain rfl := List.length_eq_zero_iff.mp hlength
      rfl
  | cons w vars ih =>
      cases types with
      | nil => cases hlength
      | cons m types =>
          unfold assign at ih ⊢
          rw [List.zip_cons_cons, List.lookup_cons]
          by_cases hvw : v = w
          · subst hvw
            rw [beq_self_eq_true, List.idxOf_cons_self]
            rfl
          · rw [beq_false_of_ne hvw, List.idxOf_cons_ne vars (Ne.symm hvw), List.getD_cons_succ]
            exact ih (Nat.succ.inj hlength)

/-- A variable stands for itself or for one of the types. -/
theorem Monotype.assign_zip_cases (vars : List TypeVariable) (types : List Monotype) (v : TypeVariable) :
    assign (vars.zip types) v = .var v ∨ assign (vars.zip types) v ∈ types := by
  unfold assign
  cases hlookup : (vars.zip types).lookup v with
  | none => exact .inl rfl
  | some m =>
      obtain ⟨before, after, hzip, -⟩ := List.lookup_eq_some_iff.mp hlookup
      have hmem : (v, m) ∈ vars.zip types := by
        rw [hzip]
        exact List.mem_append_right before List.mem_cons_self
      exact .inr (List.of_mem_zip hmem).2

theorem Monotype.assign_zip_self (vars : List TypeVariable) :
    assign (vars.zip (vars.map .var)) = .var := by
  funext v
  rw [assign_zip (by rw [List.length_map]), List.getD_map]
  by_cases hv : v ∈ vars
  · rw [List.getD_eq_getElem _ _ (List.idxOf_lt_length_iff.mpr hv), List.getElem_idxOf]
  · rw [List.idxOf_eq_length hv, List.getD_eq_default _ _ (Nat.le_refl _)]

/-- Distinct variables that are put in first and replaced afterwards leave no trace, except where
they have been there before. -/
theorem Monotype.assign_subst_assign {vars fresh : List TypeVariable} {types : List Monotype}
    (hfresh : fresh.length = vars.length) (htypes : types.length = vars.length)
    (hnodup : fresh.Nodup) {v : TypeVariable} (hv : v ∉ fresh) :
    (assign (vars.zip (fresh.map .var)) v).subst (assign (fresh.zip types)) =
      assign (vars.zip types) v := by
  rw [assign_zip (by rw [List.length_map, hfresh]), assign_zip htypes]
  by_cases hmem : v ∈ vars
  · have hlt : vars.idxOf v < fresh.length := hfresh ▸ List.idxOf_lt_length_iff.mpr hmem
    have hget : (fresh.map Monotype.var).getD (vars.idxOf v) (.var v) = .var (fresh[vars.idxOf v]) := by
      rw [List.getD_eq_getElem _ _ (by rwa [List.length_map]), List.getElem_map]
    rw [hget, subst_var, assign_zip (htypes.trans hfresh.symm), hnodup.idxOf_getElem]
    rw [List.getD_eq_getElem _ _ (by omega), List.getD_eq_getElem _ _ (by omega)]
  · have hout : vars.idxOf v = vars.length := List.idxOf_eq_length hmem
    have hout' : fresh.idxOf v = fresh.length := List.idxOf_eq_length hv
    have hlong : (fresh.map Monotype.var).length ≤ vars.length :=
      Nat.le_of_eq (by rw [List.length_map, hfresh])
    rw [hout, List.getD_eq_default _ _ hlong, subst_var, assign_zip (htypes.trans hfresh.symm), hout',
      hfresh]

/-! ## Substitution in bodies -/

namespace DependentType

variable {σ τ : TypeVariable → Monotype} {d : DependentType}

theorem binders_subst : (d.subst σ).binders = d.binders.map fun b => (b.1, b.2.subst σ) := rfl

theorem params_subst : (d.subst σ).params = d.params.map (·.subst σ) := Monotype.substList_eq_map σ _

theorem index_subst : (d.subst σ).index = d.index.map fun j => (j.1, j.2.subst σ) :=
  Monotype.substIndex_eq_map σ _

theorem mem_occurrences {v : TypeVariable} : v ∈ d.occurrences ↔
    (∃ b ∈ d.binders, v ∈ b.2.occurrences) ∨ (∃ p ∈ d.params, v ∈ p.occurrences) ∨
      ∃ j ∈ d.index, v ∈ j.2.occurrences := by
  rw [occurrences, Monotype.occurrencesList_eq_flatMap, Monotype.occurrencesList_eq_flatMap,
    Monotype.occurrencesIndex_eq_flatMap, List.mem_append, List.mem_append, List.mem_flatMap,
    List.mem_flatMap, List.mem_flatMap, or_assoc]
  simp only [List.mem_map, exists_exists_and_eq_and]

theorem subst_congr (h : ∀ v ∈ d.occurrences, σ v = τ v) : d.subst σ = d.subst τ := by
  have hbinder : ∀ b ∈ d.binders, b.2.subst σ = b.2.subst τ := fun b hb =>
    Monotype.subst_congr fun v hv => h v (mem_occurrences.mpr (.inl ⟨b, hb, hv⟩))
  rw [subst, subst, DependentType.mk.injEq, Monotype.substList_eq_map, Monotype.substList_eq_map,
    Monotype.substIndex_eq_map, Monotype.substIndex_eq_map]
  refine ⟨?_, ?_, rfl, ?_, ?_⟩
  · rw [hbinder d.first List.mem_cons_self]
  · exact List.map_congr_left fun b hb => by rw [hbinder b (List.mem_cons_of_mem _ hb)]
  · exact List.map_congr_left fun p hp => Monotype.subst_congr fun v hv =>
      h v (mem_occurrences.mpr (.inr (.inl ⟨p, hp, hv⟩)))
  · exact List.map_congr_left fun j hj => Prod.ext rfl (Monotype.subst_congr fun v hv =>
      h v (mem_occurrences.mpr (.inr (.inr ⟨j, hj, hv⟩))))

theorem eq_of_subst_eq (h : d.subst σ = d.subst τ) : ∀ v ∈ d.occurrences, σ v = τ v := by
  have hbinders := congrArg DependentType.binders h
  have hparams := congrArg DependentType.params h
  have hindex := congrArg DependentType.index h
  simp only [binders_subst, params_subst, index_subst, List.map_inj_left, Prod.mk.injEq, true_and]
    at hbinders hparams hindex
  intro v hv
  rcases mem_occurrences.mp hv with ⟨b, hb, hv⟩ | ⟨p, hp, hv⟩ | ⟨j, hj, hv⟩
  · exact Monotype.eq_of_subst_eq (hbinders b hb) v hv
  · exact Monotype.eq_of_subst_eq (hparams p hp) v hv
  · exact Monotype.eq_of_subst_eq (hindex j hj) v hv

theorem subst_var (d : DependentType) : d.subst .var = d := by
  have hself : Monotype.subst .var = fun m => m :=
    funext fun _ => Monotype.subst_eq_self fun _ _ => rfl
  simp only [subst, Monotype.substList_eq_map, Monotype.substIndex_eq_map, hself, List.map_id']

theorem subst_subst (σ τ : TypeVariable → Monotype) (d : DependentType) :
    (d.subst σ).subst τ = d.subst fun v => (σ v).subst τ := by
  simp only [subst, Monotype.substList_eq_map, Monotype.substIndex_eq_map, List.map_map,
    Monotype.subst_subst, Function.comp_def]

theorem mem_occurrences_subst {w : TypeVariable} :
    w ∈ (d.subst σ).occurrences ↔ ∃ v ∈ d.occurrences, w ∈ (σ v).occurrences := by
  rw [mem_occurrences, binders_subst, params_subst, index_subst]
  simp only [List.mem_map, exists_exists_and_eq_and, Monotype.mem_occurrences_subst]
  constructor
  · rintro (⟨b, hb, v, hv, hw⟩ | ⟨p, hp, v, hv, hw⟩ | ⟨j, hj, v, hv, hw⟩)
    · exact ⟨v, mem_occurrences.mpr (.inl ⟨b, hb, hv⟩), hw⟩
    · exact ⟨v, mem_occurrences.mpr (.inr (.inl ⟨p, hp, hv⟩)), hw⟩
    · exact ⟨v, mem_occurrences.mpr (.inr (.inr ⟨j, hj, hv⟩)), hw⟩
  · rintro ⟨v, hv, hw⟩
    rcases mem_occurrences.mp hv with ⟨b, hb, hv⟩ | ⟨p, hp, hv⟩ | ⟨j, hj, hv⟩
    · exact .inl ⟨b, hb, v, hv, hw⟩
    · exact .inr (.inl ⟨p, hp, v, hv, hw⟩)
    · exact .inr (.inr ⟨j, hj, v, hv, hw⟩)

theorem binders_erased : d.erased.binders = d.binders.map fun b => (b.1, b.2.erased) := rfl

theorem params_erased : d.erased.params = d.params.map (·.erased) := Monotype.mapIndexList_eq_map _ _

theorem index_erased : d.erased.index = d.index.map fun j => (j.1.erased, j.2.erased) :=
  Monotype.mapIndexKinds_eq_map _ _

theorem eq_of_parts {e : DependentType} (hbinders : d.binders = e.binders) (hhead : d.head = e.head)
    (hparams : d.params = e.params) (hindex : d.index = e.index) : d = e := by
  obtain ⟨first, rest, head, params, index⟩ := d
  obtain ⟨hfirst, hrest⟩ := List.cons.inj hbinders
  cases e
  exact DependentType.mk.injEq .. ▸ ⟨hfirst, hrest, hhead, hparams, hindex⟩

theorem erased_subst (σ : TypeVariable → Monotype) (d : DependentType) :
    (d.subst σ).erased = d.erased.subst fun v => (σ v).erased := by
  refine eq_of_parts ?_ rfl ?_ ?_
  · rw [binders_erased, binders_subst, binders_subst, binders_erased, List.map_map, List.map_map]
    exact List.map_congr_left fun b _ => Prod.ext rfl (Monotype.erased_subst σ b.2)
  · rw [params_erased, params_subst, params_subst, params_erased, List.map_map, List.map_map]
    exact List.map_congr_left fun p _ => Monotype.erased_subst σ p
  · rw [index_erased, index_subst, index_subst, index_erased, List.map_map, List.map_map]
    exact List.map_congr_left fun j _ => Prod.ext rfl (Monotype.erased_subst σ j.2)

theorem mem_occurrences_erased {v : TypeVariable} : v ∈ d.erased.occurrences ↔ v ∈ d.occurrences := by
  have hsame (m : Monotype) : v ∈ m.erased.occurrences ↔ v ∈ m.occurrences :=
    Monotype.mem_occurrences_mapIndex
  rw [mem_occurrences, mem_occurrences, binders_erased, params_erased, index_erased]
  simp only [List.mem_map, exists_exists_and_eq_and, hsame]

end DependentType

namespace Body

variable {σ τ : TypeVariable → Monotype} {b c : Body}

theorem subst_congr (h : ∀ v ∈ b.freeVariables, σ v = τ v) : b.subst σ = b.subst τ := by
  cases b with
  | mono m => exact congrArg mono (Monotype.subst_congr fun v hv => h v (List.mem_eraseDups.mpr hv))
  | dependent d =>
      exact congrArg dependent (DependentType.subst_congr fun v hv => h v (List.mem_eraseDups.mpr hv))

theorem eq_of_subst_eq (h : b.subst σ = b.subst τ) : ∀ v ∈ b.freeVariables, σ v = τ v := by
  cases b with
  | mono m =>
      exact fun v hv => Monotype.eq_of_subst_eq (mono.inj h) v (List.mem_eraseDups.mp hv)
  | dependent d =>
      exact fun v hv => DependentType.eq_of_subst_eq (dependent.inj h) v (List.mem_eraseDups.mp hv)

theorem subst_var (b : Body) : b.subst .var = b := by
  cases b with
  | mono m => exact congrArg mono (Monotype.subst_eq_self fun _ _ => rfl)
  | dependent d => exact congrArg dependent d.subst_var

theorem subst_subst (σ τ : TypeVariable → Monotype) (b : Body) :
    (b.subst σ).subst τ = b.subst fun v => (σ v).subst τ := by
  cases b with
  | mono m => exact congrArg mono (Monotype.subst_subst σ τ m)
  | dependent d => exact congrArg dependent (DependentType.subst_subst σ τ d)

theorem mem_freeVariables_subst {w : TypeVariable} :
    w ∈ (b.subst σ).freeVariables ↔ ∃ v ∈ b.freeVariables, w ∈ (σ v).occurrences := by
  cases b with
  | mono m =>
      show w ∈ (m.subst σ).freeVariables ↔ ∃ v ∈ m.freeVariables, _
      simp only [Monotype.mem_freeVariables, Monotype.mem_occurrences_subst]
  | dependent d =>
      show w ∈ (d.subst σ).occurrences.eraseDups ↔ ∃ v ∈ d.occurrences.eraseDups, _
      simp only [List.mem_eraseDups, DependentType.mem_occurrences_subst]

theorem erased_subst (σ : TypeVariable → Monotype) (b : Body) :
    (b.subst σ).erased = b.erased.subst fun v => (σ v).erased := by
  cases b with
  | mono m => exact congrArg mono (Monotype.erased_subst σ m)
  | dependent d => exact congrArg dependent (d.erased_subst σ)

theorem mem_freeVariables_erased {v : TypeVariable} :
    v ∈ b.erased.freeVariables ↔ v ∈ b.freeVariables := by
  cases b with
  | mono m =>
      show v ∈ m.erased.freeVariables ↔ v ∈ m.freeVariables
      rw [Monotype.mem_freeVariables, Monotype.mem_freeVariables]
      exact Monotype.mem_occurrences_mapIndex
  | dependent d =>
      show v ∈ d.erased.occurrences.eraseDups ↔ v ∈ d.occurrences.eraseDups
      rw [List.mem_eraseDups, List.mem_eraseDups, DependentType.mem_occurrences_erased]

theorem StrictEq.mem_freeVariables (h : b.StrictEq c) {v : TypeVariable} :
    v ∈ b.freeVariables ↔ v ∈ c.freeVariables := by
  rw [← mem_freeVariables_erased, show b.erased = c.erased from h, mem_freeVariables_erased]

theorem StrictEq.subst (h : b.StrictEq c) (σ : TypeVariable → Monotype) :
    (b.subst σ).StrictEq (c.subst σ) := by
  rw [StrictEq, erased_subst, erased_subst, show b.erased = c.erased from h]

theorem StrictEq.of_subst (h : (b.subst σ).StrictEq (b.subst τ)) :
    ∀ v ∈ b.freeVariables, (σ v).StrictEq (τ v) := by
  rw [StrictEq, erased_subst, erased_subst] at h
  exact fun v hv => eq_of_subst_eq h v (mem_freeVariables_erased.mpr hv)

end Body

/-! ## The search for placeholders -/

/-- The search for a stem that no listed name starts with: as long as there is such a name, an
underscore is added. -/
inductive StemSearch (taken : List TypeVariable) : String → String → Prop
  | found {stem : String} : (∀ v ∈ taken, ¬stem.toList <+: v.name.toList) →
      StemSearch taken stem stem
  | longer {stem result : String} {v : TypeVariable} : v ∈ taken → stem.toList <+: v.name.toList →
      StemSearch taken (stem ++ "_") result → StemSearch taken stem result

namespace Polytype

theorem replicate_prefix_iff {k : Nat} {name : String} :
    List.replicate k '_' <+: name.toList ↔ k ≤ leadingUnderscores name := by
  rw [leadingUnderscores]
  generalize name.toList = chars
  induction chars generalizing k with
  | nil => simp
  | cons c chars ih =>
      cases k with
      | zero => simp
      | succ k =>
          rw [List.replicate_succ, List.cons_prefix_cons, List.takeWhile_cons, ih]
          by_cases hc : c = '_'
          · simp [hc]
          · simp [hc, Ne.symm hc]

theorem le_foldl_max {k init : Nat} {counts : List Nat} :
    k ≤ counts.foldl max init ↔ k ≤ init ∨ ∃ n ∈ counts, k ≤ n := by
  induction counts generalizing init with
  | nil => simp
  | cons n counts ih =>
      have hmax : k ≤ max init n ↔ k ≤ init ∨ k ≤ n := by omega
      rw [List.foldl_cons, ih, hmax, or_assoc]
      simp

/-- The number of underscores with which the names of placeholders start. -/
def stemLength (taken : List TypeVariable) : Nat :=
  (taken.map fun v => leadingUnderscores v.name).foldl max 0 + 1

/-- What the names of placeholders start with. -/
def stem (taken : List TypeVariable) : String := String.ofList (List.replicate (stemLength taken) '_')

theorem lt_stemLength_iff {taken : List TypeVariable} {k : Nat} (hk : 0 < k) :
    k < stemLength taken ↔ ∃ v ∈ taken, List.replicate k '_' <+: v.name.toList := by
  rw [stemLength, Nat.lt_succ_iff, le_foldl_max]
  simp only [replicate_prefix_iff, List.mem_map, exists_exists_and_eq_and]
  exact or_iff_right (by omega)

/-- The search ends, and it ends with the stem of the placeholders. -/
theorem stemSearch (taken : List TypeVariable) : StemSearch taken "_" (stem taken) := by
  have hsearch : ∀ n k, 0 < k → k + n = stemLength taken →
      StemSearch taken (String.ofList (List.replicate k '_')) (stem taken) := by
    intro n
    -- the names that are long enough become fewer with every underscore
    induction n with
    | zero =>
        rintro k hk rfl
        refine .found fun v hv hprefix => ?_
        rw [String.toList_ofList] at hprefix
        exact absurd ((lt_stemLength_iff hk).mpr ⟨v, hv, hprefix⟩) (by omega)
    | succ n ih =>
        intro k hk hlength
        have hlt : k < stemLength taken := by omega
        obtain ⟨v, hv, hprefix⟩ := (lt_stemLength_iff hk).mp hlt
        refine .longer hv (by rwa [String.toList_ofList]) ?_
        have hstem : String.ofList (List.replicate k '_') ++ "_" =
            String.ofList (List.replicate (k + 1) '_') := by
          rw [List.replicate_succ', String.ofList_append]
        rw [hstem]
        exact ih (k + 1) (by omega) (by omega)
  exact hsearch (stemLength taken - 1) 1 (by omega) (by rw [stemLength]; omega)

/-- The variables that stand in for binders. -/
def placeholderNames (taken : List TypeVariable) (count : Nat) : List TypeVariable :=
  (List.range count).map fun i => ⟨stem taken ++ toString i, TypeVariable.noContext⟩

theorem placeholders_eq (taken : List TypeVariable) (count : Nat) :
    placeholders taken count = (placeholderNames taken count).map .var := by
  rw [placeholderNames, List.map_map]
  rfl

theorem length_placeholderNames (taken : List TypeVariable) (count : Nat) :
    (placeholderNames taken count).length = count := by
  rw [placeholderNames, List.length_map, List.length_range]

theorem nodup_placeholderNames (taken : List TypeVariable) (count : Nat) :
    (placeholderNames taken count).Nodup := by
  refine List.Nodup.map (fun i j hij => ?_) List.nodup_range
  exact append_repr_inj (congrArg TypeVariable.name hij)

theorem not_mem_of_mem_placeholderNames {taken : List TypeVariable} {count : Nat}
    {v : TypeVariable} (hv : v ∈ placeholderNames taken count) : v ∉ taken := by
  obtain ⟨i, -, rfl⟩ := List.mem_map.mp hv
  intro htaken
  have hpos : 0 < stemLength taken := by rw [stemLength]; omega
  refine absurd ((lt_stemLength_iff hpos).mpr ⟨_, htaken, ?_⟩) (Nat.lt_irrefl _)
  show List.replicate (stemLength taken) '_' <+: (stem taken ++ toString i).toList
  rw [String.toList_append, stem, String.toList_ofList]
  exact List.prefix_append _ _

/-! ## Bodies at given types -/

/-- The body with the given types in the place of the binders, one for each position. Of equal
binders the first one counts. -/
def bodyAt (p : Polytype) (types : List Monotype) : Body :=
  p.body.subst (.assign (p.binders.zip types))

/-- Distinct variables, one for each binder, that the body does not mention. -/
structure Unused (p : Polytype) (vars : List TypeVariable) : Prop where
  length : vars.length = p.binders.length
  nodup : vars.Nodup
  absent : ∀ v ∈ vars, v ∉ p.body.freeVariables

/-- What is put in for unused variables ends up where the binders were. -/
theorem bodyAt_subst {p : Polytype} {vars : List TypeVariable} {types : List Monotype}
    (hvars : p.Unused vars) (htypes : types.length = p.binders.length) :
    (p.bodyAt (vars.map .var)).subst (.assign (vars.zip types)) = p.bodyAt types := by
  rw [bodyAt, bodyAt, Body.subst_subst]
  refine Body.subst_congr fun v hv => ?_
  exact Monotype.assign_subst_assign hvars.length htypes hvars.nodup fun hmem =>
    hvars.absent v hmem hv

/-- Polytypes that agree at unused variables agree at all types. -/
theorem bodyAt_strictEq_of_unused {p q : Polytype} {vars : List TypeVariable} (hp : p.Unused vars)
    (hq : q.Unused vars) (h : (p.bodyAt (vars.map .var)).StrictEq (q.bodyAt (vars.map .var)))
    {types : List Monotype} (htypes : types.length = p.binders.length) :
    (p.bodyAt types).StrictEq (q.bodyAt types) := by
  have hlength : p.binders.length = q.binders.length := hp.length.symm.trans hq.length
  rw [← bodyAt_subst hp htypes, ← bodyAt_subst hq (htypes.trans hlength)]
  exact h.subst _

/-- The placeholders of a comparison are unused on both sides. -/
theorem unused_placeholders {p q : Polytype} (hlength : p.binders.length = q.binders.length) :
    p.Unused (placeholderNames (p.body.freeVariables ++ q.body.freeVariables) p.binders.length) ∧
      q.Unused (placeholderNames (p.body.freeVariables ++ q.body.freeVariables) p.binders.length) := by
  refine ⟨⟨length_placeholderNames _ _, nodup_placeholderNames _ _, fun v hv hmem => ?_⟩,
    ⟨(length_placeholderNames _ _).trans hlength, nodup_placeholderNames _ _, fun v hv hmem => ?_⟩⟩
  · exact not_mem_of_mem_placeholderNames hv (List.mem_append_left _ hmem)
  · exact not_mem_of_mem_placeholderNames hv (List.mem_append_right _ hmem)

/-- Polytypes are equal just if they have equally many binders and agree at all types. -/
theorem alphaEq_iff {p q : Polytype} : (p == q) = true ↔
    p.binders.length = q.binders.length ∧
      ∀ types : List Monotype, types.length = p.binders.length →
        (p.bodyAt types).StrictEq (q.bodyAt types) := by
  have hunfold : (p == q) = true ↔ p.binders.length = q.binders.length ∧
      (p.bodyAt (placeholders (p.body.freeVariables ++ q.body.freeVariables) p.binders.length)).StrictEq
        (q.bodyAt
          (placeholders (p.body.freeVariables ++ q.body.freeVariables) p.binders.length)) := by
    show alphaEq p q = true ↔ _
    rw [alphaEq, Bool.and_eq_true, beq_iff_eq, decide_eq_true_iff]
    rfl
  rw [hunfold, placeholders_eq]
  refine and_congr_right fun hlength => ⟨fun h types htypes => ?_, fun h => h _ ?_⟩
  · obtain ⟨hp, hq⟩ := unused_placeholders hlength
    exact bodyAt_strictEq_of_unused hp hq h htypes
  · rw [List.length_map, length_placeholderNames]

theorem alphaEq_symm {p q : Polytype} (h : (p == q) = true) : (q == p) = true := by
  obtain ⟨hlength, hbodies⟩ := alphaEq_iff.mp h
  exact alphaEq_iff.mpr ⟨hlength.symm, fun types htypes =>
    (hbodies types (htypes.trans hlength.symm)).symm⟩

theorem alphaEq_trans {p q r : Polytype} (h : (p == q) = true) (h' : (q == r) = true) :
    (p == r) = true := by
  obtain ⟨hlength, hbodies⟩ := alphaEq_iff.mp h
  obtain ⟨hlength', hbodies'⟩ := alphaEq_iff.mp h'
  exact alphaEq_iff.mpr ⟨hlength.trans hlength', fun types htypes =>
    (hbodies types htypes).trans (hbodies' types (htypes.trans hlength))⟩

/-- Any unused variables do for the comparison. -/
theorem alphaEq_iff_unused {p q : Polytype} {vars : List TypeVariable} (hp : p.Unused vars)
    (hq : q.Unused vars) :
    (p == q) = true ↔ (p.bodyAt (vars.map .var)).StrictEq (q.bodyAt (vars.map .var)) := by
  rw [alphaEq_iff]
  constructor
  · rintro ⟨-, h⟩
    exact h _ (by rw [List.length_map, hp.length])
  · intro h
    exact ⟨hp.length.symm.trans hq.length, fun types htypes => bodyAt_strictEq_of_unused hp hq h htypes⟩

/-- Giving unused names to the binders makes an equal polytype, and no other one with these binders. -/
theorem alphaEq_renamed_iff {p : Polytype} {vars : List TypeVariable} {b : Body} (hp : p.Unused vars) :
    (p == ⟨vars, b⟩) = true ↔ (p.bodyAt (vars.map .var)).StrictEq b := by
  have hlength : (vars.map Monotype.var).length = p.binders.length := by
    rw [List.length_map, hp.length]
  have hself : bodyAt ⟨vars, b⟩ (vars.map .var) = b := by
    rw [bodyAt, Monotype.assign_zip_self, Body.subst_var]
  rw [alphaEq_iff]
  constructor
  · rintro ⟨-, h⟩
    have hat := h _ hlength
    rwa [hself] at hat
  · intro h
    refine ⟨hp.length.symm, fun types htypes => ?_⟩
    rw [← bodyAt_subst hp htypes]
    exact h.subst _

/-- **Equality of polytypes is alpha equivalence.** It is reflexive, symmetric and transitive. The
search for the names of placeholders ends. Polytypes with equally many binders are equal just if every
list of distinct variables that occur in neither body makes their bodies equal, when it is put in for
the binders position by position; and any one such list decides it. -/
theorem alphaEq_equivalence :
    (∀ p : Polytype, (p == p) = true) ∧
    (∀ p q : Polytype, (p == q) = true → (q == p) = true) ∧
    (∀ p q r : Polytype, (p == q) = true → (q == r) = true → (p == r) = true) ∧
    (∀ taken count, ∃ result, StemSearch taken "_" result ∧ placeholders taken count =
      (List.range count).map fun i => .var ⟨result ++ toString i, TypeVariable.noContext⟩) ∧
    ∀ p q : Polytype, p.binders.length = q.binders.length →
      ((p == q) = true ↔ ∀ vars, p.Unused vars → q.Unused vars →
        (p.bodyAt (vars.map .var)).StrictEq (q.bodyAt (vars.map .var))) ∧
      ∀ vars, p.Unused vars → q.Unused vars →
        ((p == q) = true ↔ (p.bodyAt (vars.map .var)).StrictEq (q.bodyAt (vars.map .var))) := by
  refine ⟨fun p => alphaEq_iff.mpr ⟨rfl, fun _ _ => rfl⟩, fun p q => alphaEq_symm,
    fun p q r => alphaEq_trans, ?_, ?_⟩
  · intro taken count
    exact ⟨stem taken, stemSearch taken, rfl⟩
  · intro p q hlength
    refine ⟨⟨fun h vars hp hq => (alphaEq_iff_unused hp hq).mp h, fun h => ?_⟩,
      fun vars hp hq => alphaEq_iff_unused hp hq⟩
    obtain ⟨hp, hq⟩ := unused_placeholders hlength
    exact (alphaEq_iff_unused hp hq).mpr (h _ hp hq)

/-- `forall a a . a -> __`, `forall b c . b -> __` and `forall _ a . _ -> __`. The unused variables at
which the first two are compared are named as the free one and as a binder, in another context. -/
theorem alphaEq_equivalence_of_duplicate :
    let first (v w : TypeVariable) : Polytype :=
      ⟨[v, w], .mono (.arrow (.var v) (.var ⟨"__", TypeVariable.noContext⟩))⟩
    let a : TypeVariable := ⟨"a", TypeVariable.noContext⟩
    let b : TypeVariable := ⟨"b", TypeVariable.noContext⟩
    let c : TypeVariable := ⟨"c", TypeVariable.noContext⟩
    let vars : List TypeVariable := [⟨"__", 0⟩, ⟨"a", 0⟩]
    (first a a).Unused vars ∧ (first b c).Unused vars ∧ (first a a == first b c) = true ∧
      (first b c == first .wildcard a) = true ∧ (first a a == first .wildcard a) = true := by
  intro first a b c vars
  obtain ⟨-, -, htrans, -, hdecide⟩ := alphaEq_equivalence
  have hfirst : (first a a).Unused vars := ⟨rfl, by decide +kernel, by decide +kernel⟩
  have hsecond : (first b c).Unused vars := ⟨rfl, by decide +kernel, by decide +kernel⟩
  have hequal : (first a a == first b c) = true :=
    ((hdecide (first a a) (first b c) rfl).2 vars hfirst hsecond).mpr (by decide +kernel)
  have hequal' : (first b c == first .wildcard a) = true := by decide +kernel
  exact ⟨hfirst, hsecond, hequal, hequal', htrans _ _ _ hequal hequal'⟩

end Polytype

end IndexedLambda
