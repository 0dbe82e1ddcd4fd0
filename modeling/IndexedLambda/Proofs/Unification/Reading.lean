import IndexedLambda.Proofs.Unification.Resolution
import IndexedLambda.Unification.Context
/-!
# Readings of the classes

The two class maps of a context are equations: a bound variable stands for what it is bound to. A
reading gives every type variable a type and every index variable a term, and it is a model of the
classes when it makes all these equations true. Models are how the results of unification are stated
and proved. They do not mention the order in which bindings were made, and a model of classes that
have grown is a model of what they were before.

When the bindings are acyclic, resolving is a model, and the most general one: every model sees a
type and its resolved form as the same (`Reading.Models.onType_resolve`), and any reading becomes a
model when variables are resolved first (`Reading.after_models`).

Equations may be read up to a view of types, such as one that forgets how constants are written. Two
types are then equal when their views are. A view has to act through the views of what is
substituted (`Congruent`).
-/

namespace IndexedLambda

/-- What unification knows: the classes of type variables and those of index variables. -/
structure Classes where
  types : ClassMap Monotype
  kinds : ClassMap Term

/-- The classes of a context. -/
def TypeContext.known (c : TypeContext) : Classes := ⟨c.classes, c.kinds⟩

namespace Classes

/-- The type with every variable replaced by its representative, all the way down. -/
def resolve (c : Classes) (m : Monotype) : Monotype := c.types.resolve c.kinds m

/-- No binding leads back to where it started. -/
structure Acyclic (c : Classes) : Prop where
  types : ∃ rank, c.types.TypesDescend rank
  kinds : ∃ rank, c.kinds.KindsDescend rank

end Classes

@[simp] theorem TypeContext.known_types (c : TypeContext) : c.known.types = c.classes := rfl

@[simp] theorem TypeContext.known_kinds (c : TypeContext) : c.known.kinds = c.kinds := rfl

@[simp] theorem TypeContext.known_resolve (c : TypeContext) (m : Monotype) :
    c.known.resolve m = c.resolve m := rfl

/-! ## Resolving in acyclic classes -/

namespace Classes

variable {c : Classes}

theorem resolve_eq_subst (m : Monotype) :
    c.resolve m = (m.mapIndex c.kinds.find).subst fun v => c.resolve (.var v) :=
  ClassMap.resolve_eq_subst _ _ _

theorem resolve_var_of_none {v : TypeVariable} (h : c.types.get? v.key = none) :
    c.resolve (.var v) = .var v := ClassMap.resolve_var_of_none _ h

namespace Acyclic

theorem resolve_var_of_some (hc : c.Acyclic) {v : TypeVariable} {m : Monotype}
    (h : c.types.get? v.key = some m) : c.resolve (.var v) = c.resolve m := by
  obtain ⟨rank, hrank⟩ := hc.types
  exact ClassMap.resolve_var_of_some _ hrank h

/-- An induction over type variables that may assume the claim for the variables of a binding. -/
theorem variable_induction (hc : c.Acyclic) {motive : TypeVariable → Prop}
    (unbound : ∀ v, c.types.get? v.key = none → motive v)
    (bound : ∀ v m, c.types.get? v.key = some m → (∀ w ∈ m.occurrences, motive w) → motive v)
    (v : TypeVariable) : motive v := by
  obtain ⟨rank, hrank⟩ := hc.types
  induction hr : rank v using Nat.strongRecOn generalizing v with
  | ind r ih =>
      cases hget : c.types.get? v.key with
      | none => exact unbound v hget
      | some m =>
          exact bound v m hget fun w hw => ih (rank w) (hr ▸ hrank v m hget w hw) w rfl

theorem next?_find_type (hc : c.Acyclic) (m : Monotype) :
    c.types.next? (c.types.find m) = none := by
  obtain ⟨rank, hrank⟩ := hc.types
  exact ClassMap.next?_find hrank.descends m

theorem next?_find_kind (hc : c.Acyclic) (t : Term) :
    c.kinds.next? (c.kinds.find t) = none := by
  obtain ⟨rank, hrank⟩ := hc.kinds
  exact ClassMap.next?_find hrank.descends t

theorem find_kind_of_some (hc : c.Acyclic) {v : Variable} {t : Term}
    (h : c.kinds.get? v.key = some t) : c.kinds.find (.var v) = c.kinds.find t := by
  obtain ⟨rank, hrank⟩ := hc.kinds
  exact ClassMap.find_of_next? hrank.descends h

/-- Only variables that are not bound are left in a resolved type. -/
theorem get?_eq_none_of_mem_resolve (hc : c.Acyclic) {m : Monotype} {w : TypeVariable}
    (h : w ∈ (c.resolve m).occurrences) : c.types.get? w.key = none := by
  rw [resolve_eq_subst, Monotype.mem_occurrences_subst] at h
  obtain ⟨v, -, hw⟩ := h
  induction v using hc.variable_induction with
  | unbound v hv =>
      rw [resolve_var_of_none hv, Monotype.mem_occurrences_var] at hw
      exact hw ▸ hv
  | bound v m hv ih =>
      rw [hc.resolve_var_of_some hv, resolve_eq_subst, Monotype.mem_occurrences_subst] at hw
      obtain ⟨u, hu, hw⟩ := hw
      exact ih u (Monotype.mem_occurrences_mapIndex.mp hu) hw

/-- Every index term of a resolved type is a representative. -/
theorem exists_find_of_mem_resolve (hc : c.Acyclic) {m : Monotype} {t : Term}
    (h : t ∈ (c.resolve m).indexTerms) : ∃ u, t = c.kinds.find u := by
  have hvar : ∀ v, t ∈ (c.resolve (.var v)).indexTerms → ∃ u, t = c.kinds.find u := by
    intro v
    induction v using hc.variable_induction with
    | unbound v hv => rw [resolve_var_of_none hv]; simp
    | bound v m hv ih =>
        rw [hc.resolve_var_of_some hv, resolve_eq_subst, Monotype.mem_indexTerms_subst]
        rintro (ht | ⟨u, hu, ht⟩)
        · obtain ⟨u, -, rfl⟩ := Monotype.mem_indexTerms_mapIndex.mp ht
          exact ⟨u, rfl⟩
        · exact ih u (Monotype.mem_occurrences_mapIndex.mp hu) ht
  rw [resolve_eq_subst, Monotype.mem_indexTerms_subst] at h
  rcases h with h | ⟨v, -, h⟩
  · obtain ⟨u, -, rfl⟩ := Monotype.mem_indexTerms_mapIndex.mp h
    exact ⟨u, rfl⟩
  · exact hvar v h

end Acyclic

end Classes

/-! ## Readings and models -/

/-- A type for every type variable and a term for every index variable. -/
structure Reading where
  type : TypeVariable → Monotype
  term : Variable → Term

/-- A view of types that acts through the views of what is substituted. -/
def Congruent (view : Monotype → Monotype) : Prop :=
  ∀ (m : Monotype) (σ τ : TypeVariable → Monotype),
    (∀ v ∈ m.occurrences, view (σ v) = view (τ v)) → view (m.subst σ) = view (m.subst τ)

theorem congruent_id : Congruent id := fun _ _ _ h => Monotype.subst_congr h

namespace Reading

/-- What a reading makes of an index term. Only a term that is a variable is read; variables inside
other terms stay. -/
def onTerm (r : Reading) : Term → Term
  | .var v => r.term v
  | t => t

/-- What a reading makes of a type. -/
def onType (r : Reading) (m : Monotype) : Monotype := (m.mapIndex r.onTerm).subst r.type

/-- The reading makes every binding an equation between views. -/
structure Models (r : Reading) (view : Monotype → Monotype) (c : Classes) : Prop where
  type : ∀ {v m}, c.types.get? v.key = some m → view (r.type v) = view (r.onType m)
  term : ∀ {v t}, c.kinds.get? v.key = some t → r.term v = r.onTerm t

variable {r : Reading} {view : Monotype → Monotype} {c : Classes}

@[simp] theorem onType_var (v : TypeVariable) : r.onType (.var v) = r.type v := rfl

theorem onType_app (head : TypeConstant) (params : List Monotype) :
    r.onType (.app head params) = .app head (params.map r.onType) := by
  rw [onType, Monotype.mapIndex_app, Monotype.subst_app, List.map_map]
  rfl

theorem onTerm_of_ne_var {t : Term} (h : ∀ v, t ≠ .var v) : r.onTerm t = t := by
  cases t with
  | var v => exact absurd rfl (h v)
  | _ => rfl

/-- A reading acts on an instance through what it makes of the substituted types. -/
theorem onType_subst (σ : TypeVariable → Monotype) (m : Monotype) :
    r.onType (m.subst σ) = (m.mapIndex r.onTerm).subst fun v => r.onType (σ v) := by
  rw [onType, Monotype.mapIndex_subst, Monotype.subst_subst]
  rfl

namespace Models

/-- A model does not tell an index term from its representative. -/
theorem onTerm_find (h : r.Models view c) (hc : c.Acyclic) (t : Term) :
    r.onTerm (c.kinds.find t) = r.onTerm t := by
  obtain ⟨rank, hrank⟩ := hc.kinds
  induction t using hrank.descends.walk_induction with
  | unbound t hnext => rw [ClassMap.find_of_next?_none hnext]
  | bound t u hnext ih =>
      rw [ClassMap.find_of_next? hrank.descends hnext, ih]
      cases t with
      | var v => exact (h.term hnext).symm
      | _ => exact absurd hnext (by simp [ClassMap.next?, Keyed.key?])

theorem mapIndex_find (h : r.Models view c) (hc : c.Acyclic) (m : Monotype) :
    (m.mapIndex c.kinds.find).mapIndex r.onTerm = m.mapIndex r.onTerm := by
  rw [Monotype.mapIndex_mapIndex]
  exact Monotype.mapIndex_congr fun t _ => h.onTerm_find hc t

/-- A model does not tell a type from its resolved form. -/
theorem onType_resolve (h : r.Models view c) (hview : Congruent view) (hc : c.Acyclic)
    (m : Monotype) : view (r.onType (c.resolve m)) = view (r.onType m) := by
  -- a type follows from its variables, and a variable from the type it is bound to
  have step : ∀ m : Monotype, (∀ v ∈ m.occurrences,
      view (r.onType (c.resolve (.var v))) = view (r.type v)) →
      view (r.onType (c.resolve m)) = view (r.onType m) := by
    intro m hm
    rw [Classes.resolve_eq_subst, onType_subst, h.mapIndex_find hc]
    exact hview _ _ _ fun v hv => hm v (Monotype.mem_occurrences_mapIndex.mp hv)
  have hvar : ∀ v, view (r.onType (c.resolve (.var v))) = view (r.type v) := by
    intro v
    induction v using hc.variable_induction with
    | unbound v hv => rw [Classes.resolve_var_of_none hv, onType_var]
    | bound v m hv ih => rw [hc.resolve_var_of_some hv, step m ih, h.type hv]
  exact step m fun v _ => hvar v

/-- A model does not tell a type from its representative. -/
theorem onType_find (h : r.Models view c) (hc : c.Acyclic) (m : Monotype) :
    view (r.onType (c.types.find m)) = view (r.onType m) := by
  obtain ⟨rank, hrank⟩ := hc.types
  induction m using hrank.descends.walk_induction with
  | unbound m hnext => rw [ClassMap.find_of_next?_none hnext]
  | bound m m' hnext ih =>
      rw [ClassMap.find_of_next? hrank.descends hnext, ih]
      cases m with
      | var v => exact (h.type hnext).symm
      | _ => exact absurd hnext (by simp [ClassMap.next?, Keyed.key?, Monotype.asVariable])

end Models

/-! ## Resolving as a reading -/

/-- Resolves first and reads what is left. -/
def after (r : Reading) (c : Classes) : Reading where
  type v := r.onType (c.resolve (.var v))
  term v := r.onTerm (c.kinds.find (.var v))

theorem after_onTerm (t : Term) : (r.after c).onTerm t = r.onTerm (c.kinds.find t) := by
  cases t with
  | var v => rfl
  | _ => rw [ClassMap.find_of_next?_none rfl]; rfl

theorem after_onType (m : Monotype) : (r.after c).onType m = r.onType (c.resolve m) := by
  rw [Classes.resolve_eq_subst, onType_subst, Monotype.mapIndex_mapIndex, onType]
  rw [Monotype.mapIndex_congr fun t _ => after_onTerm t]
  rfl

/-- Any reading is a model once variables are resolved first. -/
theorem after_models (hc : c.Acyclic) : (r.after c).Models id c where
  type {v m} hv := by
    show r.onType (c.resolve (.var v)) = (r.after c).onType m
    rw [after_onType, hc.resolve_var_of_some hv]
  term {v t} hv := by
    show r.onTerm (c.kinds.find (.var v)) = (r.after c).onTerm t
    rw [after_onTerm, hc.find_kind_of_some hv]

/-- The reading that leaves everything as it is. -/
def trivial : Reading := ⟨.var, .var⟩

@[simp] theorem trivial_onTerm (t : Term) : trivial.onTerm t = t := by
  cases t with
  | var v => rfl
  | _ => rfl

@[simp] theorem trivial_onType (m : Monotype) : trivial.onType m = m := by
  rw [onType, Monotype.mapIndex_eq_self fun t _ => trivial_onTerm t]
  exact Monotype.subst_eq_self fun _ _ => rfl

end Reading

namespace Classes

/-- Resolving, as a reading. -/
def reading (c : Classes) : Reading := Reading.trivial.after c

variable {c : Classes}

@[simp] theorem reading_onType (m : Monotype) : c.reading.onType m = c.resolve m := by
  rw [reading, Reading.after_onType, Reading.trivial_onType]

@[simp] theorem reading_onTerm (t : Term) : c.reading.onTerm t = c.kinds.find t := by
  rw [reading, Reading.after_onTerm, Reading.trivial_onTerm]

@[simp] theorem reading_type (v : TypeVariable) : c.reading.type v = c.resolve (.var v) := by
  rw [← Reading.onType_var, reading_onType]

theorem Acyclic.reading_models (hc : c.Acyclic) : c.reading.Models id c :=
  Reading.after_models hc

theorem Acyclic.resolve_find (hc : c.Acyclic) (m : Monotype) :
    c.resolve (c.types.find m) = c.resolve m := by
  have h := hc.reading_models.onType_find hc m
  rwa [id, id, reading_onType, reading_onType] at h

theorem Acyclic.resolve_resolve (hc : c.Acyclic) (m : Monotype) :
    c.resolve (c.resolve m) = c.resolve m := by
  have h := hc.reading_models.onType_resolve congruent_id hc m
  rwa [id, id, reading_onType, reading_onType] at h

end Classes

end IndexedLambda
