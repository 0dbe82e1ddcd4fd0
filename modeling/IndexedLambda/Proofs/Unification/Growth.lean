import IndexedLambda.Proofs.Unification.Reading
import Mathlib.Logic.Relation
/-!
# How classes grow

Unification changes the classes in two ways only: it binds a type variable to a type, or an index
variable to an index term. `Binds` says exactly when it does so. The variable is not bound yet, the
other side is a representative, and a type variable does not occur in the type when that is resolved.
Nothing is ever bound anew, and no binding is taken back, also when unification fails.

What is true of every run is derived from these two steps: classes stay acyclic, models of the later
classes are models of the earlier ones, and resolving after a step is resolving before it followed by
one substitution. A region keeps track of which variables and index terms a run can touch at all.
-/

namespace IndexedLambda

open Relation

/-- Type variables and index terms that a run may touch. -/
structure Region where
  types : TypeVariable → Prop
  terms : Term → Prop

namespace Region

/-- The region of everything. -/
def all : Region := ⟨fun _ => True, fun _ => True⟩

/-- The type mentions only what is in the region. -/
structure Holds (R : Region) (m : Monotype) : Prop where
  types : ∀ v ∈ m.occurrences, R.types v
  terms : ∀ t ∈ m.indexTerms, R.terms t

theorem all_holds (m : Monotype) : all.Holds m := ⟨fun _ _ => trivial, fun _ _ => trivial⟩

end Region

/-- One binding, made within a region. -/
inductive Binds (R : Region) : Classes → Classes → Prop
  | type {c : Classes} {v : TypeVariable} {m : Monotype} :
      c.types.get? v.key = none → c.types.next? m = none → v ∉ (c.resolve m).occurrences →
      R.types v → R.Holds (c.resolve m) → Binds R c ⟨c.types.bind v.key m, c.kinds⟩
  | kind {c : Classes} {v : Variable} {t : Term} :
      c.kinds.get? v.key = none → c.kinds.next? t = none → t ≠ .var v →
      R.terms (.var v) → R.terms t → Binds R c ⟨c.types, c.kinds.bind v.key t⟩

/-- Any number of bindings, made within a region. -/
abbrev Grows (R : Region) : Classes → Classes → Prop := ReflTransGen (Binds R)

/-! ## Acyclic classes stay acyclic -/

/-- Finitely many numbers have a bound. -/
theorem exists_bound {α : Type} (f : α → Nat) (xs : List α) : ∃ bound, ∀ x ∈ xs, f x < bound := by
  induction xs with
  | nil => exact ⟨0, by simp⟩
  | cons x xs ih =>
      obtain ⟨bound, hbound⟩ := ih
      refine ⟨bound + f x + 1, fun y hy => ?_⟩
      rcases List.mem_cons.mp hy with rfl | hy
      · omega
      · have := hbound y hy
        omega

/-- Binding a variable outside its own resolved type lifts every variable that leads to it above
the variables of the type. -/
theorem ClassMap.TypesDescend.bind {c : Classes} {rank : TypeVariable → Nat}
    (hrank : c.types.TypesDescend rank) {v : TypeVariable} {m : Monotype}
    (hv : c.types.get? v.key = none) (hout : v ∉ (c.resolve m).occurrences) :
    ∃ rank', (c.types.bind v.key m).TypesDescend rank' := by
  obtain ⟨bound, hbound⟩ := exists_bound rank m.occurrences
  -- `v` itself is lifted as well, and the variables of its new type are not
  refine ⟨fun u => if v ∈ (c.resolve (.var u)).occurrences then rank u + bound else rank u, ?_⟩
  intro u n hget w hw
  rw [ClassMap.get?_bind] at hget
  by_cases huv : v = u
  · subst huv
    obtain rfl : m = n := by simpa using hget
    have hvv : v ∈ (c.resolve (.var v)).occurrences := by
      rw [Classes.resolve_var_of_none hv]; simp
    have hwv : v ∉ (c.resolve (.var w)).occurrences := fun h => by
      refine hout ?_
      rw [Classes.resolve_eq_subst, Monotype.mem_occurrences_subst]
      exact ⟨w, Monotype.mem_occurrences_mapIndex.mpr hw, h⟩
    have hlt := hbound w hw
    simp only [hvv, hwv, if_true, if_false]
    omega
  · have hget' : c.types.get? u.key = some n := by simpa [huv] using hget
    have hlt := hrank u n hget' w hw
    -- what `w` leads to, `u` leads to as well
    have hup : v ∈ (c.resolve (.var w)).occurrences → v ∈ (c.resolve (.var u)).occurrences := by
      intro h
      rw [show c.resolve (.var u) = c.resolve n from
        ClassMap.resolve_var_of_some _ hrank hget', Classes.resolve_eq_subst,
        Monotype.mem_occurrences_subst]
      exact ⟨w, Monotype.mem_occurrences_mapIndex.mpr hw, h⟩
    by_cases hwv : v ∈ (c.resolve (.var w)).occurrences
    · simp only [hwv, hup hwv, if_true]
      omega
    · simp only [hwv, if_false]
      split <;> omega

theorem ClassMap.KindsDescend.bind {c : ClassMap Term} {rank : Variable → Nat}
    (hrank : c.KindsDescend rank) {v : Variable} {t : Term} (hv : c.get? v.key = none)
    (ht : c.next? t = none) (hne : t ≠ .var v) :
    ∃ rank', (c.bind v.key t).KindsDescend rank' := by
  refine ⟨fun u => if c.find (.var u) = .var v then rank u + ClassMap.termRank rank t
    else rank u, ?_⟩
  intro u w hget
  rw [ClassMap.get?_bind] at hget
  by_cases huv : v = u
  · subst huv
    obtain rfl : t = .var w := by simpa using hget
    have hvv : c.find (.var v) = .var v := ClassMap.find_of_next?_none hv
    have hww : c.find (.var w) = .var w := ClassMap.find_of_next?_none ht
    simp only [hvv, hww, hne, if_true, if_false, ClassMap.termRank]
    omega
  · have hget' : c.get? u.key = some (.var w) := by simpa [huv] using hget
    have hlt := hrank u w hget'
    have hfind : c.find (.var u) = c.find (.var w) :=
      ClassMap.find_of_next? hrank.descends hget'
    simp only [hfind]
    split <;> omega

theorem Binds.acyclic {R : Region} {c d : Classes} (h : Binds R c d) (hc : c.Acyclic) :
    d.Acyclic := by
  obtain ⟨⟨rank, hrank⟩, ⟨krank, hkrank⟩⟩ := hc
  cases h with
  | type hv _ hout _ _ => exact ⟨hrank.bind hv hout, krank, hkrank⟩
  | kind hv ht hne _ _ => exact ⟨⟨rank, hrank⟩, hkrank.bind hv ht hne⟩

theorem Grows.acyclic {R : Region} {c d : Classes} (h : Grows R c d) (hc : c.Acyclic) :
    d.Acyclic := by
  induction h with
  | refl => exact hc
  | tail _ hstep ih => exact hstep.acyclic ih

/-! ## Models of later classes -/

theorem Binds.get?_type {R : Region} {c d : Classes} (h : Binds R c d) {key : String}
    {m : Monotype} (hkey : c.types.get? key = some m) : d.types.get? key = some m := by
  cases h with
  | @type v n hv _ _ _ _ =>
      have hne : v.key ≠ key := by rintro rfl; rw [hv] at hkey; cases hkey
      rw [ClassMap.get?_bind, if_neg hne, hkey]
  | kind => exact hkey

theorem Binds.get?_kind {R : Region} {c d : Classes} (h : Binds R c d) {key : String} {t : Term}
    (hkey : c.kinds.get? key = some t) : d.kinds.get? key = some t := by
  cases h with
  | type => exact hkey
  | @kind v u hv _ _ _ _ =>
      have hne : v.key ≠ key := by rintro rfl; rw [hv] at hkey; cases hkey
      rw [ClassMap.get?_bind, if_neg hne, hkey]

theorem Grows.get?_type {R : Region} {c d : Classes} (h : Grows R c d) {key : String} {m : Monotype}
    (hkey : c.types.get? key = some m) : d.types.get? key = some m := by
  induction h with
  | refl => exact hkey
  | tail _ hstep ih => exact hstep.get?_type ih

theorem Grows.get?_kind {R : Region} {c d : Classes} (h : Grows R c d) {key : String} {t : Term}
    (hkey : c.kinds.get? key = some t) : d.kinds.get? key = some t := by
  induction h with
  | refl => exact hkey
  | tail _ hstep ih => exact hstep.get?_kind ih

/-- What the later classes say, the earlier ones said less of. -/
theorem Grows.models {R : Region} {c d : Classes} (h : Grows R c d) {r : Reading}
    {view : Monotype → Monotype} (hr : r.Models view d) : r.Models view c := by
  induction h with
  | refl => exact hr
  | tail _ hstep ih =>
      exact ih ⟨fun hv => hr.type (hstep.get?_type hv), fun hv => hr.term (hstep.get?_kind hv)⟩

/-- Resolving again after the classes have grown is the same as resolving then. -/
theorem Grows.resolve_resolve {R : Region} {c d : Classes} (h : Grows R c d) (hc : c.Acyclic)
    (m : Monotype) : d.resolve (c.resolve m) = d.resolve m := by
  have hmodel : d.reading.Models id c := h.models (h.acyclic hc).reading_models
  have hread := hmodel.onType_resolve congruent_id hc m
  rwa [id, id, Classes.reading_onType, Classes.reading_onType] at hread

/-! ## Resolving after one binding -/

section Resolve

variable {c : Classes}

/-- What is left of a resolved type to be resolved later are its variables and its index terms. -/
theorem Grows.resolve_eq_subst {R : Region} {d : Classes} (h : Grows R c d) (hc : c.Acyclic)
    (m : Monotype) : d.resolve m =
      ((c.resolve m).mapIndex d.kinds.find).subst fun v => d.resolve (.var v) := by
  rw [← h.resolve_resolve hc m, Classes.resolve_eq_subst]

theorem Classes.Acyclic.mapIndex_find_resolve (hc : c.Acyclic) (m : Monotype) :
    (c.resolve m).mapIndex c.kinds.find = c.resolve m := by
  refine Monotype.mapIndex_eq_self fun t ht => ?_
  obtain ⟨u, rfl⟩ := hc.exists_find_of_mem_resolve ht
  exact ClassMap.find_of_next?_none (hc.next?_find_kind u)

/-- After a type variable has been bound, it is replaced by the resolved type. -/
theorem Classes.Acyclic.resolve_bind_type (hc : c.Acyclic) {v : TypeVariable} {m : Monotype}
    (hv : c.types.get? v.key = none) (hm : c.types.next? m = none)
    (hout : v ∉ (c.resolve m).occurrences) (x : Monotype) :
    Classes.resolve ⟨c.types.bind v.key m, c.kinds⟩ x =
      (c.resolve x).subst (.single v (c.resolve m)) := by
  have hstep : Binds .all c ⟨c.types.bind v.key m, c.kinds⟩ :=
    .type hv hm hout trivial (Region.all_holds _)
  have hd := hstep.acyclic hc
  have hother : ∀ u, c.types.get? u.key = none → u ≠ v →
      Classes.resolve ⟨c.types.bind v.key m, c.kinds⟩ (.var u) = .var u := by
    intro u hu hne
    refine Classes.resolve_var_of_none ?_
    rw [ClassMap.get?_bind, if_neg (fun e => hne (TypeVariable.key_injective e).symm), hu]
  -- the variables of the resolved type are unbound and different from `v`, so nothing more happens
  have hself : Classes.resolve ⟨c.types.bind v.key m, c.kinds⟩ (.var v) = c.resolve m := by
    rw [hd.resolve_var_of_some (m := m) (by rw [ClassMap.get?_bind, if_pos rfl]),
      Grows.resolve_eq_subst (.single hstep) hc, hc.mapIndex_find_resolve]
    refine Monotype.subst_eq_self fun u hu => ?_
    exact hother u (hc.get?_eq_none_of_mem_resolve hu) (by rintro rfl; exact hout hu)
  rw [Grows.resolve_eq_subst (.single hstep) hc, hc.mapIndex_find_resolve]
  refine Monotype.subst_congr fun u hu => ?_
  by_cases huv : u = v
  · rw [huv, hself, Monotype.single, if_pos rfl]
  · rw [hother u (hc.get?_eq_none_of_mem_resolve hu) huv, Monotype.single, if_neg huv]

/-- After an index variable has been bound, it is replaced by the index term. -/
theorem Classes.Acyclic.resolve_bind_kind (hc : c.Acyclic) {v : Variable} {t : Term}
    (hv : c.kinds.get? v.key = none) (ht : c.kinds.next? t = none) (hne : t ≠ .var v)
    (x : Monotype) :
    Classes.resolve ⟨c.types, c.kinds.bind v.key t⟩ x =
      (c.resolve x).mapIndex fun s => if s = .var v then t else s := by
  have hstep : Binds .all c ⟨c.types, c.kinds.bind v.key t⟩ := .kind hv ht hne trivial trivial
  have hd := hstep.acyclic hc
  -- after the step, the only representative that has changed is the variable itself
  have hfix : ∀ s, c.kinds.next? s = none → s ≠ .var v →
      (c.kinds.bind v.key t).find s = s := by
    intro s hs hsv
    refine ClassMap.find_of_next?_none ?_
    cases s with
    | var w =>
        have hwv : v.key ≠ w.key := fun e => hsv (by rw [Variable.key_injective e])
        rw [ClassMap.next?_term_var, ClassMap.get?_bind, if_neg hwv]
        exact hs
    | _ => rfl
  have hself : (c.kinds.bind v.key t).find (.var v) = t := by
    rw [hd.find_kind_of_some (t := t) (by rw [ClassMap.get?_bind, if_pos rfl])]
    exact hfix t ht hne
  have hunbound : ∀ u ∈ ((c.resolve x).mapIndex (c.kinds.bind v.key t).find).occurrences,
      Classes.resolve ⟨c.types, c.kinds.bind v.key t⟩ (.var u) = .var u := fun u hu =>
    Classes.resolve_var_of_none
      (hc.get?_eq_none_of_mem_resolve (Monotype.mem_occurrences_mapIndex.mp hu))
  rw [Grows.resolve_eq_subst (.single hstep) hc, Monotype.subst_eq_self hunbound]
  refine Monotype.mapIndex_congr fun s hs => ?_
  obtain ⟨u, rfl⟩ := hc.exists_find_of_mem_resolve hs
  by_cases huv : c.kinds.find u = .var v
  · rw [if_pos huv, huv, hself]
  · rw [if_neg huv, hfix _ (hc.next?_find_kind u) huv]

end Resolve

/-! ## Staying in a region -/

theorem Binds.holds {R : Region} {c d : Classes} (h : Binds R c d) (hc : c.Acyclic)
    {x : Monotype} (hx : R.Holds (c.resolve x)) : R.Holds (d.resolve x) := by
  cases h with
  | @type v m hv hm hout hR hRm =>
      rw [hc.resolve_bind_type hv hm hout]
      constructor
      · intro w hw
        obtain ⟨u, hu, hw⟩ := Monotype.mem_occurrences_subst.mp hw
        unfold Monotype.single at hw
        split at hw
        · exact hRm.types w hw
        · exact (Monotype.mem_occurrences_var _).mp hw ▸ hx.types u hu
      · intro t ht
        rcases Monotype.mem_indexTerms_subst.mp ht with ht | ⟨u, -, ht⟩
        · exact hx.terms t ht
        · unfold Monotype.single at ht
          split at ht
          · exact hRm.terms t ht
          · simp at ht
  | @kind v t hv ht hne hR hRt =>
      rw [hc.resolve_bind_kind hv ht hne]
      constructor
      · intro w hw
        exact hx.types w (Monotype.mem_occurrences_mapIndex.mp hw)
      · intro s hs
        obtain ⟨u, hu, rfl⟩ := Monotype.mem_indexTerms_mapIndex.mp hs
        split
        · exact hRt
        · exact hx.terms u hu

theorem Grows.holds {R : Region} {c d : Classes} (h : Grows R c d) (hc : c.Acyclic)
    {x : Monotype} (hx : R.Holds (c.resolve x)) : R.Holds (d.resolve x) := by
  induction h with
  | refl => exact hx
  | tail hgrows hstep ih => exact hstep.holds (Grows.acyclic hgrows hc) ih

end IndexedLambda
