import IndexedLambda.Unification.ClassMap
import Mathlib.Data.List.Forall2
import Mathlib.Logic.Equiv.Basic
/-!
# Laws of substitution in monotypes

Two operations act on the leaves of a monotype: `subst` on its type variables and `mapIndex` on its
index terms. This module says what they do to each other and to the two lists of leaves,
`occurrences` and `indexTerms`. The laws are stated once for whole types. The mutual walks over
parameters and indices are first read as `map` and `flatMap`, so that each law is one induction with
a case per constructor.

Each operation sees only its own leaves. So `subst_congr` and `mapIndex_congr` ask for agreement on
the leaves that occur, and the two operations commute up to mapping inside what is substituted.
-/

namespace IndexedLambda.Monotype

/-! ## The walks as maps -/

theorem substList_eq_map (σ : TypeVariable → Monotype) (ms : List Monotype) :
    substList σ ms = ms.map (subst σ) := by
  induction ms with
  | nil => rfl
  | cons m ms ih => rw [substList, ih, List.map_cons]

theorem substIndex_eq_map (σ : TypeVariable → Monotype) (js : List (Term × Monotype)) :
    substIndex σ js = js.map fun j => (j.1, j.2.subst σ) := by
  induction js with
  | nil => rfl
  | cons j js ih => rw [substIndex, ih, List.map_cons]

theorem mapIndexList_eq_map (f : Term → Term) (ms : List Monotype) :
    mapIndexList f ms = ms.map (mapIndex f) := by
  induction ms with
  | nil => rfl
  | cons m ms ih => rw [mapIndexList, ih, List.map_cons]

theorem mapIndexKinds_eq_map (f : Term → Term) (js : List (Term × Monotype)) :
    mapIndexKinds f js = js.map fun j => (f j.1, j.2.mapIndex f) := by
  induction js with
  | nil => rfl
  | cons j js ih => rw [mapIndexKinds, ih, List.map_cons]

theorem occurrencesList_eq_flatMap (ms : List Monotype) :
    occurrencesList ms = ms.flatMap occurrences := by
  induction ms with
  | nil => rfl
  | cons m ms ih => rw [occurrencesList, ih, List.flatMap_cons]

theorem occurrencesIndex_eq_flatMap (js : List (Term × Monotype)) :
    occurrencesIndex js = js.flatMap fun j => j.2.occurrences := by
  induction js with
  | nil => rfl
  | cons j js ih => rw [occurrencesIndex, ih, List.flatMap_cons]

section Equations

variable (σ : TypeVariable → Monotype) (f : Term → Term) (v : TypeVariable) (c : TypeConstant)
  (params : List Monotype) (index : List (Term × Monotype))

@[simp] theorem subst_var : (var v).subst σ = σ v := rfl

@[simp] theorem subst_const : (const c).subst σ = const c := rfl

@[simp] theorem subst_app : (app c params).subst σ = app c (params.map (subst σ)) := by
  rw [subst, substList_eq_map]

@[simp] theorem subst_inst : (inst c params index).subst σ =
    inst c (params.map (subst σ)) (index.map fun j => (j.1, j.2.subst σ)) := by
  rw [subst, substList_eq_map, substIndex_eq_map]

theorem subst_arrow (a b : Monotype) : (arrow a b).subst σ = arrow (a.subst σ) (b.subst σ) := by
  rw [arrow, subst_app]
  rfl

@[simp] theorem mapIndex_var : (var v).mapIndex f = var v := rfl

@[simp] theorem mapIndex_const : (const c).mapIndex f = const c := rfl

@[simp] theorem mapIndex_app : (app c params).mapIndex f = app c (params.map (mapIndex f)) := by
  rw [mapIndex, mapIndexList_eq_map]

@[simp] theorem mapIndex_inst : (inst c params index).mapIndex f =
    inst c (params.map (mapIndex f)) (index.map fun j => (f j.1, j.2.mapIndex f)) := by
  rw [mapIndex, mapIndexList_eq_map, mapIndexKinds_eq_map]

@[simp] theorem mem_occurrences_var {w : TypeVariable} : w ∈ (var v).occurrences ↔ w = v := by
  rw [occurrences, List.mem_singleton]

@[simp] theorem occurrences_const : (const c).occurrences = [] := rfl

@[simp] theorem mem_occurrences_app {w : TypeVariable} :
    w ∈ (app c params).occurrences ↔ ∃ p ∈ params, w ∈ p.occurrences := by
  rw [occurrences, occurrencesList_eq_flatMap, List.mem_flatMap]

@[simp] theorem mem_occurrences_inst {w : TypeVariable} :
    w ∈ (inst c params index).occurrences ↔
      (∃ p ∈ params, w ∈ p.occurrences) ∨ ∃ j ∈ index, w ∈ j.2.occurrences := by
  rw [occurrences, occurrencesList_eq_flatMap, occurrencesIndex_eq_flatMap, List.mem_append,
    List.mem_flatMap, List.mem_flatMap]

end Equations

@[simp] theorem mem_freeVariables {v : TypeVariable} {m : Monotype} :
    v ∈ m.freeVariables ↔ v ∈ m.occurrences := List.mem_eraseDups

@[simp] theorem isVariable_subst_of_not {σ : TypeVariable → Monotype} {m : Monotype}
    (h : m.isVariable = false) : (m.subst σ).isVariable = false := by
  cases m with
  | var v => cases h
  | const c => rfl
  | app head params => rw [subst_app]; rfl
  | inst head params index => rw [subst_inst]; rfl

theorem isVariable_mapIndex (f : Term → Term) (m : Monotype) :
    (m.mapIndex f).isVariable = m.isVariable := by
  cases m with
  | var v => rfl
  | const c => rfl
  | app head params => rw [mapIndex_app]; rfl
  | inst head params index => rw [mapIndex_inst]; rfl

theorem hasInside_iff {m : Monotype} {v : TypeVariable} :
    m.hasInside v = true ↔ m.isVariable = false ∧ v ∈ m.occurrences := by
  rw [hasInside, Bool.and_eq_true, Bool.not_eq_true', List.contains_iff_mem, mem_freeVariables]

/-! ## Index terms -/

mutual
/-- Every index term, parameters before the index. -/
def indexTerms : Monotype → List Term
  | .var _ => []
  | .const _ => []
  | .app _ params => indexTermsList params
  | .inst _ params index => indexTermsList params ++ indexTermsIndex index
/-- `indexTerms` over all elements. -/
def indexTermsList : List Monotype → List Term
  | [] => []
  | m :: ms => m.indexTerms ++ indexTermsList ms
/-- The terms of an index, each before those of its kind. -/
def indexTermsIndex : List (Term × Monotype) → List Term
  | [] => []
  | (t, k) :: js => t :: k.indexTerms ++ indexTermsIndex js
end

mutual
/-- Whether a type has no dependent instance in it: it is built from variables, constants and
applications. -/
def isIndexFree : Monotype → Bool
  | .var _ => true
  | .const _ => true
  | .app _ params => isIndexFreeList params
  | .inst _ _ _ => false
/-- `isIndexFree` of all elements. -/
def isIndexFreeList : List Monotype → Bool
  | [] => true
  | m :: ms => m.isIndexFree && isIndexFreeList ms
end

theorem indexTermsList_eq_flatMap (ms : List Monotype) :
    indexTermsList ms = ms.flatMap indexTerms := by
  induction ms with
  | nil => rfl
  | cons m ms ih => rw [indexTermsList, ih, List.flatMap_cons]

theorem indexTermsIndex_eq_flatMap (js : List (Term × Monotype)) :
    indexTermsIndex js = js.flatMap fun j => j.1 :: j.2.indexTerms := by
  induction js with
  | nil => rfl
  | cons j js ih => rw [indexTermsIndex, ih, List.flatMap_cons]

@[simp] theorem indexTerms_var (v : TypeVariable) : (var v).indexTerms = [] := rfl

@[simp] theorem indexTerms_const (c : TypeConstant) : (const c).indexTerms = [] := rfl

@[simp] theorem mem_indexTerms_app {t : Term} {c : TypeConstant} {params : List Monotype} :
    t ∈ (app c params).indexTerms ↔ ∃ p ∈ params, t ∈ p.indexTerms := by
  rw [indexTerms, indexTermsList_eq_flatMap, List.mem_flatMap]

@[simp] theorem mem_indexTerms_inst {t : Term} {c : TypeConstant} {params : List Monotype}
    {index : List (Term × Monotype)} :
    t ∈ (inst c params index).indexTerms ↔
      (∃ p ∈ params, t ∈ p.indexTerms) ∨ ∃ j ∈ index, t = j.1 ∨ t ∈ j.2.indexTerms := by
  simp only [indexTerms, indexTermsList_eq_flatMap, indexTermsIndex_eq_flatMap, List.mem_append,
    List.mem_flatMap, List.mem_cons]

theorem isIndexFreeList_iff {ms : List Monotype} :
    isIndexFreeList ms = true ↔ ∀ m ∈ ms, m.isIndexFree = true := by
  induction ms with
  | nil => simp [isIndexFreeList]
  | cons m ms ih => rw [isIndexFreeList, Bool.and_eq_true, ih, List.forall_mem_cons]

@[simp] theorem isIndexFree_var (v : TypeVariable) : (var v).isIndexFree = true := rfl

@[simp] theorem isIndexFree_const (c : TypeConstant) : (const c).isIndexFree = true := rfl

@[simp] theorem isIndexFree_app {c : TypeConstant} {params : List Monotype} :
    (app c params).isIndexFree = true ↔ ∀ p ∈ params, p.isIndexFree = true := by
  rw [isIndexFree, isIndexFreeList_iff]

@[simp] theorem isIndexFree_inst (c : TypeConstant) (params : List Monotype)
    (index : List (Term × Monotype)) : (inst c params index).isIndexFree = false := rfl

/-! ## The laws -/

/-- A substitution acts through its values at the variables of the type. -/
theorem subst_congr {σ τ : TypeVariable → Monotype} {m : Monotype}
    (h : ∀ v ∈ m.occurrences, σ v = τ v) : m.subst σ = m.subst τ := by
  induction m using Monotype.induction_on with
  | var v => exact h v (by simp)
  | const c => rfl
  | app head params ih =>
      rw [subst_app, subst_app, List.map_congr_left fun p hp => ih p hp fun v hv => h v ?_]
      exact (mem_occurrences_app _ _).mpr ⟨p, hp, hv⟩
  | inst head params index ihp ihj =>
      rw [subst_inst, subst_inst]
      congr 1
      · exact List.map_congr_left fun p hp => ihp p hp fun v hv =>
          h v ((mem_occurrences_inst _ _ _).mpr (Or.inl ⟨p, hp, hv⟩))
      · exact List.map_congr_left fun j hj => Prod.ext rfl (ihj j hj fun v hv =>
          h v ((mem_occurrences_inst _ _ _).mpr (Or.inr ⟨j, hj, hv⟩)))

/-- What has been put in for the variables of a type can be read off the result. -/
theorem eq_of_subst_eq {σ τ : TypeVariable → Monotype} {m : Monotype} (h : m.subst σ = m.subst τ) :
    ∀ v ∈ m.occurrences, σ v = τ v := by
  induction m using Monotype.induction_on with
  | var v =>
      intro w hw
      rwa [(mem_occurrences_var v).mp hw]
  | const c => simp
  | app head params ih =>
      simp only [subst_app, app.injEq, true_and, List.map_inj_left] at h
      intro v hv
      obtain ⟨p, hp, hv⟩ := (mem_occurrences_app _ _).mp hv
      exact ih p hp (h p hp) v hv
  | inst head params index ihp ihj =>
      simp only [subst_inst, inst.injEq, true_and, List.map_inj_left, Prod.mk.injEq] at h
      intro v hv
      rcases (mem_occurrences_inst _ _ _).mp hv with ⟨p, hp, hv⟩ | ⟨j, hj, hv⟩
      · exact ihp p hp (h.1 p hp) v hv
      · exact ihj j hj (h.2 j hj) v hv

theorem subst_subst (σ τ : TypeVariable → Monotype) (m : Monotype) :
    (m.subst σ).subst τ = m.subst fun v => (σ v).subst τ := by
  induction m using Monotype.induction_on with
  | var v => rfl
  | const c => rfl
  | app head params ih =>
      rw [subst_app, subst_app, subst_app, List.map_map]
      exact congrArg _ (List.map_congr_left ih)
  | inst head params index ihp ihj =>
      rw [subst_inst, subst_inst, subst_inst, List.map_map, List.map_map]
      congr 1
      · exact List.map_congr_left ihp
      · exact List.map_congr_left fun j hj => Prod.ext rfl (ihj j hj)

/-- A substitution that changes none of its variables leaves a type alone. -/
theorem subst_eq_self {σ : TypeVariable → Monotype} {m : Monotype}
    (h : ∀ v ∈ m.occurrences, σ v = var v) : m.subst σ = m := by
  induction m using Monotype.induction_on with
  | var v => exact h v (by simp)
  | const c => rfl
  | app head params ih =>
      rw [subst_app]
      refine congrArg _ ((List.map_congr_left fun p hp => ?_).trans (List.map_id _))
      exact ih p hp fun v hv => h v ((mem_occurrences_app _ _).mpr ⟨p, hp, hv⟩)
  | inst head params index ihp ihj =>
      rw [subst_inst]
      congr 1
      · refine (List.map_congr_left fun p hp => ?_).trans (List.map_id _)
        exact ihp p hp fun v hv => h v ((mem_occurrences_inst _ _ _).mpr (Or.inl ⟨p, hp, hv⟩))
      · refine (List.map_congr_left fun j hj => ?_).trans (List.map_id _)
        exact Prod.ext rfl (ihj j hj fun v hv =>
          h v ((mem_occurrences_inst _ _ _).mpr (Or.inr ⟨j, hj, hv⟩)))

/-- The variables of an instance come from the substituted types. -/
theorem mem_occurrences_subst {σ : TypeVariable → Monotype} {m : Monotype} {w : TypeVariable} :
    w ∈ (m.subst σ).occurrences ↔ ∃ v ∈ m.occurrences, w ∈ (σ v).occurrences := by
  induction m using Monotype.induction_on with
  | var v => simp
  | const c => simp
  | app head params ih =>
      rw [subst_app, mem_occurrences_app]
      simp only [List.mem_map, exists_exists_and_eq_and, mem_occurrences_app]
      constructor
      · rintro ⟨p, hp, hw⟩
        obtain ⟨v, hv, hwv⟩ := (ih p hp).mp hw
        exact ⟨v, ⟨p, hp, hv⟩, hwv⟩
      · rintro ⟨v, ⟨p, hp, hv⟩, hwv⟩
        exact ⟨p, hp, (ih p hp).mpr ⟨v, hv, hwv⟩⟩
  | inst head params index ihp ihj =>
      rw [subst_inst, mem_occurrences_inst]
      simp only [List.mem_map, exists_exists_and_eq_and, mem_occurrences_inst]
      constructor
      · rintro (⟨p, hp, hw⟩ | ⟨j, hj, hw⟩)
        · obtain ⟨v, hv, hwv⟩ := (ihp p hp).mp hw
          exact ⟨v, Or.inl ⟨p, hp, hv⟩, hwv⟩
        · obtain ⟨v, hv, hwv⟩ := (ihj j hj).mp hw
          exact ⟨v, Or.inr ⟨j, hj, hv⟩, hwv⟩
      · rintro ⟨v, ⟨p, hp, hv⟩ | ⟨j, hj, hv⟩, hwv⟩
        · exact Or.inl ⟨p, hp, (ihp p hp).mpr ⟨v, hv, hwv⟩⟩
        · exact Or.inr ⟨j, hj, (ihj j hj).mpr ⟨v, hv, hwv⟩⟩

/-- The index terms of an instance are those of the type and of the substituted types. -/
theorem mem_indexTerms_subst {σ : TypeVariable → Monotype} {m : Monotype} {t : Term} :
    t ∈ (m.subst σ).indexTerms ↔
      t ∈ m.indexTerms ∨ ∃ v ∈ m.occurrences, t ∈ (σ v).indexTerms := by
  induction m using Monotype.induction_on with
  | var v => simp
  | const c => simp
  | app head params ih =>
      rw [subst_app, mem_indexTerms_app]
      simp only [List.mem_map, exists_exists_and_eq_and, mem_indexTerms_app, mem_occurrences_app]
      constructor
      · rintro ⟨p, hp, ht⟩
        rcases (ih p hp).mp ht with ht | ⟨v, hv, ht⟩
        · exact Or.inl ⟨p, hp, ht⟩
        · exact Or.inr ⟨v, ⟨p, hp, hv⟩, ht⟩
      · rintro (⟨p, hp, ht⟩ | ⟨v, ⟨p, hp, hv⟩, ht⟩)
        · exact ⟨p, hp, (ih p hp).mpr (Or.inl ht)⟩
        · exact ⟨p, hp, (ih p hp).mpr (Or.inr ⟨v, hv, ht⟩)⟩
  | inst head params index ihp ihj =>
      rw [subst_inst, mem_indexTerms_inst]
      simp only [List.mem_map, exists_exists_and_eq_and, mem_indexTerms_inst, mem_occurrences_inst]
      constructor
      · rintro (⟨p, hp, ht⟩ | ⟨j, hj, rfl | ht⟩)
        · rcases (ihp p hp).mp ht with ht | ⟨v, hv, ht⟩
          · exact Or.inl (Or.inl ⟨p, hp, ht⟩)
          · exact Or.inr ⟨v, Or.inl ⟨p, hp, hv⟩, ht⟩
        · exact Or.inl (Or.inr ⟨j, hj, Or.inl rfl⟩)
        · rcases (ihj j hj).mp ht with ht | ⟨v, hv, ht⟩
          · exact Or.inl (Or.inr ⟨j, hj, Or.inr ht⟩)
          · exact Or.inr ⟨v, Or.inr ⟨j, hj, hv⟩, ht⟩
      · rintro ((⟨p, hp, ht⟩ | ⟨j, hj, rfl | ht⟩) | ⟨v, ⟨p, hp, hv⟩ | ⟨j, hj, hv⟩, ht⟩)
        · exact Or.inl ⟨p, hp, (ihp p hp).mpr (Or.inl ht)⟩
        · exact Or.inr ⟨j, hj, Or.inl rfl⟩
        · exact Or.inr ⟨j, hj, Or.inr ((ihj j hj).mpr (Or.inl ht))⟩
        · exact Or.inl ⟨p, hp, (ihp p hp).mpr (Or.inr ⟨v, hv, ht⟩)⟩
        · exact Or.inr ⟨j, hj, Or.inr ((ihj j hj).mpr (Or.inr ⟨v, hv, ht⟩))⟩

/-- The type with constants in the places of the given variables. -/
def close (bound : List TypeVariable) (m : Monotype) : Monotype :=
  m.subst fun v => if v ∈ bound then .const (.plain v.key) else .var v

theorem close_nil (m : Monotype) : m.close [] = m := subst_eq_self fun _ _ => rfl

theorem mem_occurrences_close {bound : List TypeVariable} {m : Monotype} {v : TypeVariable} :
    v ∈ (m.close bound).occurrences ↔ v ∈ m.occurrences ∧ v ∉ bound := by
  rw [close, mem_occurrences_subst]
  constructor
  · rintro ⟨w, hw, hv⟩
    by_cases hbound : w ∈ bound
    · rw [if_pos hbound] at hv
      simp at hv
    · rw [if_neg hbound, mem_occurrences_var] at hv
      exact hv ▸ ⟨hw, hbound⟩
  · rintro ⟨hv, hbound⟩
    exact ⟨v, hv, by rw [if_neg hbound]; simp⟩

theorem mem_indexTerms_close {bound : List TypeVariable} {m : Monotype} {t : Term} :
    t ∈ (m.close bound).indexTerms ↔ t ∈ m.indexTerms := by
  rw [close, mem_indexTerms_subst]
  refine or_iff_left ?_
  rintro ⟨v, -, ht⟩
  split at ht <;> simp at ht

/-! ## Maps of index terms -/

/-- A function acts through its values at the index terms of the type. -/
theorem mapIndex_congr {f g : Term → Term} {m : Monotype} (h : ∀ t ∈ m.indexTerms, f t = g t) :
    m.mapIndex f = m.mapIndex g := by
  induction m using Monotype.induction_on with
  | var v => rfl
  | const c => rfl
  | app head params ih =>
      rw [mapIndex_app, mapIndex_app]
      exact congrArg _ (List.map_congr_left fun p hp => ih p hp fun t ht =>
        h t (mem_indexTerms_app.mpr ⟨p, hp, ht⟩))
  | inst head params index ihp ihj =>
      rw [mapIndex_inst, mapIndex_inst]
      congr 1
      · exact List.map_congr_left fun p hp => ihp p hp fun t ht =>
          h t (mem_indexTerms_inst.mpr (Or.inl ⟨p, hp, ht⟩))
      · exact List.map_congr_left fun j hj => Prod.ext
          (h j.1 (mem_indexTerms_inst.mpr (Or.inr ⟨j, hj, Or.inl rfl⟩)))
          (ihj j hj fun t ht => h t (mem_indexTerms_inst.mpr (Or.inr ⟨j, hj, Or.inr ht⟩)))

theorem mapIndex_id (m : Monotype) : m.mapIndex (fun t => t) = m := by
  induction m using Monotype.induction_on with
  | var v => rfl
  | const c => rfl
  | app head params ih =>
      rw [mapIndex_app]
      exact congrArg _ ((List.map_congr_left ih).trans (List.map_id _))
  | inst head params index ihp ihj =>
      rw [mapIndex_inst]
      congr 1
      · exact (List.map_congr_left ihp).trans (List.map_id _)
      · refine (List.map_congr_left fun j hj => ?_).trans (List.map_id _)
        exact Prod.ext rfl (ihj j hj)

theorem mapIndex_eq_self {f : Term → Term} {m : Monotype} (h : ∀ t ∈ m.indexTerms, f t = t) :
    m.mapIndex f = m := (mapIndex_congr h).trans (mapIndex_id m)

theorem mapIndex_mapIndex (f g : Term → Term) (m : Monotype) :
    (m.mapIndex f).mapIndex g = m.mapIndex fun t => g (f t) := by
  induction m using Monotype.induction_on with
  | var v => rfl
  | const c => rfl
  | app head params ih =>
      rw [mapIndex_app, mapIndex_app, mapIndex_app, List.map_map]
      exact congrArg _ (List.map_congr_left ih)
  | inst head params index ihp ihj =>
      rw [mapIndex_inst, mapIndex_inst, mapIndex_inst, List.map_map, List.map_map]
      congr 1
      · exact List.map_congr_left ihp
      · exact List.map_congr_left fun j hj => Prod.ext rfl (ihj j hj)

/-- Index terms are mapped in the type and in what is substituted alike. -/
theorem mapIndex_subst (f : Term → Term) (σ : TypeVariable → Monotype) (m : Monotype) :
    (m.subst σ).mapIndex f = (m.mapIndex f).subst fun v => (σ v).mapIndex f := by
  induction m using Monotype.induction_on with
  | var v => rfl
  | const c => rfl
  | app head params ih =>
      rw [subst_app, mapIndex_app, mapIndex_app, subst_app, List.map_map, List.map_map]
      exact congrArg _ (List.map_congr_left ih)
  | inst head params index ihp ihj =>
      rw [subst_inst, mapIndex_inst, mapIndex_inst, subst_inst]
      simp only [List.map_map]
      congr 1
      · exact List.map_congr_left ihp
      · exact List.map_congr_left fun j hj => Prod.ext rfl (ihj j hj)

theorem erased_subst (σ : TypeVariable → Monotype) (m : Monotype) :
    (m.subst σ).erased = m.erased.subst fun v => (σ v).erased := mapIndex_subst _ σ m

@[simp] theorem mem_occurrences_mapIndex {f : Term → Term} {m : Monotype} {w : TypeVariable} :
    w ∈ (m.mapIndex f).occurrences ↔ w ∈ m.occurrences := by
  induction m using Monotype.induction_on with
  | var v => rfl
  | const c => rfl
  | app head params ih =>
      rw [mapIndex_app, mem_occurrences_app, mem_occurrences_app]
      simp only [List.mem_map, exists_exists_and_eq_and]
      exact exists_congr fun p => and_congr_right (ih p)
  | inst head params index ihp ihj =>
      rw [mapIndex_inst, mem_occurrences_inst, mem_occurrences_inst]
      simp only [List.mem_map, exists_exists_and_eq_and]
      exact or_congr (exists_congr fun p => and_congr_right (ihp p))
        (exists_congr fun j => and_congr_right (ihj j))

theorem StrictEq.mem_occurrences {m n : Monotype} (h : m.StrictEq n) {v : TypeVariable} :
    v ∈ m.occurrences ↔ v ∈ n.occurrences := by
  rw [← mem_occurrences_mapIndex (f := .erased), show m.mapIndex .erased = n.mapIndex .erased from h,
    mem_occurrences_mapIndex]

/-- Strictly equal types have the same images under what respects strict equality of index terms. -/
theorem StrictEq.mapIndex_eq {f : Term → Term} (hf : ∀ s t : Term, s.StrictEq t → f s = f t)
    {m n : Monotype} (h : m.StrictEq n) : m.mapIndex f = n.mapIndex f := by
  obtain ⟨e, rfl⟩ : ∃ e, f = e ∘ Term.erased :=
    (Function.factorsThrough_iff f).mp fun s t => hf s t
  calc m.mapIndex (fun t => e t.erased)
      = m.erased.mapIndex e := (mapIndex_mapIndex Term.erased e m).symm
    _ = n.erased.mapIndex e := by rw [show m.erased = n.erased from h]
    _ = n.mapIndex fun t => e t.erased := mapIndex_mapIndex Term.erased e n

/-- A type that is changed only as strict equality does not see has its variables changed so. -/
theorem StrictEq.of_subst {σ τ : TypeVariable → Monotype} {m : Monotype}
    (h : (m.subst σ).StrictEq (m.subst τ)) : ∀ v ∈ m.occurrences, (σ v).StrictEq (τ v) := by
  rw [StrictEq, erased_subst, erased_subst] at h
  exact fun v hv => eq_of_subst_eq h v (mem_occurrences_mapIndex.mpr hv)

theorem mem_indexTerms_mapIndex {f : Term → Term} {m : Monotype} {t : Term} :
    t ∈ (m.mapIndex f).indexTerms ↔ ∃ u ∈ m.indexTerms, t = f u := by
  induction m using Monotype.induction_on with
  | var v => simp
  | const c => simp
  | app head params ih =>
      rw [mapIndex_app, mem_indexTerms_app]
      simp only [List.mem_map, exists_exists_and_eq_and, mem_indexTerms_app]
      constructor
      · rintro ⟨p, hp, ht⟩
        obtain ⟨u, hu, rfl⟩ := (ih p hp).mp ht
        exact ⟨u, ⟨p, hp, hu⟩, rfl⟩
      · rintro ⟨u, ⟨p, hp, hu⟩, rfl⟩
        exact ⟨p, hp, (ih p hp).mpr ⟨u, hu, rfl⟩⟩
  | inst head params index ihp ihj =>
      rw [mapIndex_inst, mem_indexTerms_inst]
      simp only [List.mem_map, exists_exists_and_eq_and, mem_indexTerms_inst]
      constructor
      · rintro (⟨p, hp, ht⟩ | ⟨j, hj, rfl | ht⟩)
        · obtain ⟨u, hu, rfl⟩ := (ihp p hp).mp ht
          exact ⟨u, Or.inl ⟨p, hp, hu⟩, rfl⟩
        · exact ⟨j.1, Or.inr ⟨j, hj, Or.inl rfl⟩, rfl⟩
        · obtain ⟨u, hu, rfl⟩ := (ihj j hj).mp ht
          exact ⟨u, Or.inr ⟨j, hj, Or.inr hu⟩, rfl⟩
      · rintro ⟨u, ⟨p, hp, hu⟩ | ⟨j, hj, rfl | hu⟩, rfl⟩
        · exact Or.inl ⟨p, hp, (ihp p hp).mpr ⟨u, hu, rfl⟩⟩
        · exact Or.inr ⟨j, hj, Or.inl rfl⟩
        · exact Or.inr ⟨j, hj, Or.inr ((ihj j hj).mpr ⟨u, hu, rfl⟩)⟩

/-! ## Types without indices -/

theorem indexTerms_eq_nil {m : Monotype} (h : m.isIndexFree = true) : m.indexTerms = [] := by
  induction m using Monotype.induction_on with
  | var v => rfl
  | const c => rfl
  | app head params ih =>
      refine List.eq_nil_iff_forall_not_mem.mpr fun t ht => ?_
      obtain ⟨p, hp, ht⟩ := mem_indexTerms_app.mp ht
      rw [ih p hp (isIndexFree_app.mp h p hp)] at ht
      exact List.not_mem_nil ht
  | inst head params index => exact absurd h (by simp)

/-- Without indices there is nothing to map. -/
theorem mapIndex_of_isIndexFree {f : Term → Term} {m : Monotype} (h : m.isIndexFree = true) :
    m.mapIndex f = m := mapIndex_eq_self (by rw [indexTerms_eq_nil h]; simp)

/-- Indices come in through the type or through what is substituted. -/
theorem isIndexFree_subst {σ : TypeVariable → Monotype} {m : Monotype} :
    (m.subst σ).isIndexFree = true ↔
      m.isIndexFree = true ∧ ∀ v ∈ m.occurrences, (σ v).isIndexFree = true := by
  induction m using Monotype.induction_on with
  | var v => simp
  | const c => simp
  | app head params ih =>
      simp only [subst_app, isIndexFree_app, List.forall_mem_map, mem_occurrences_app]
      constructor
      · intro h
        refine ⟨fun p hp => ((ih p hp).mp (h p hp)).1, ?_⟩
        rintro v ⟨p, hp, hv⟩
        exact ((ih p hp).mp (h p hp)).2 v hv
      · rintro ⟨hfree, hσ⟩ p hp
        exact (ih p hp).mpr ⟨hfree p hp, fun v hv => hσ v ⟨p, hp, hv⟩⟩
  | inst head params index => simp

end IndexedLambda.Monotype
