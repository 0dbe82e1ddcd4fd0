import IndexedLambda.Proofs.Unification.Run
/-!
# Properties that all types of a context share

A property of types is pervasive if variables have it, if it goes over to the parts of a type, and if
neither other index terms nor a substitution that has it destroys it. If everything that the classes
bind variables to has such a property, then representatives and resolved types have it too, and
unifying types that have it lets nothing else into the classes.

Two properties are of this sort. Types without dependent instances: as long as only these are unified,
no index variable is bound either, so a substitution of type variables is all there is to say about
the classes. And well split types: as long as only these are unified, everything can be written that
unification has to write.
-/

namespace IndexedLambda

/-- A property that goes over to parts and is kept by other index terms and by substitution. -/
structure Monotype.Pervasive (P : Monotype → Prop) : Prop where
  var : ∀ v, P (.var v)
  part : ∀ {m p}, P m → p ∈ m.parts → P p
  mapIndex : ∀ {m} f, P m → P (m.mapIndex f)
  subst : ∀ {m} {σ : TypeVariable → Monotype}, P m → (∀ v, P (σ v)) → P (m.subst σ)

theorem Monotype.pervasive_true : Pervasive fun _ => True :=
  ⟨fun _ => trivial, fun _ _ => trivial, fun _ _ => trivial, fun _ _ => trivial⟩

/-- A property may be asked for under a condition only. -/
theorem Monotype.Pervasive.under {P : Monotype → Prop} (hP : Pervasive P) (condition : Prop) :
    Pervasive fun m => condition → P m where
  var v _ := hP.var v
  part hm hp h := hP.part (hm h) hp
  mapIndex f hm h := hP.mapIndex f (hm h)
  subst hm hσ h := hP.subst (hm h) fun v => hσ v h

namespace ClassMap

/-- Everything that is bound to has the property. -/
def Throughout {α : Type} (P : α → Prop) (c : ClassMap α) : Prop := ∀ key a, c.get? key = some a → P a

section Lookup

variable {α : Type} {P : α → Prop} {c : ClassMap α} (hc : c.Throughout P)

include hc

theorem Throughout.erase (key : String) : (c.erase key).Throughout P := by
  intro key' a h
  rw [get?_erase] at h
  split at h
  · exact absurd h (by simp)
  · exact hc key' a h

theorem Throughout.bind (key : String) {a : α} (ha : P a) : (c.bind key a).Throughout P := by
  intro key' b h
  rw [get?_bind] at h
  split at h
  · cases h
    exact ha
  · exact hc key' b h

theorem Throughout.findWithin [Keyed α] {a : α} (ha : P a) (n : Nat) : P (findWithin n c a) := by
  induction n generalizing c a with
  | zero => exact ha
  | succ n ih =>
      rw [ClassMap.findWithin]
      split
      · exact ha
      · split
        · exact ha
        · rename_i key _ _ b hb
          exact ih (hc.erase key) (hc key b hb)

end Lookup

theorem Throughout.resolveWithin {P : Monotype → Prop} (hP : Monotype.Pervasive P)
    {c : ClassMap Monotype} (hc : c.Throughout P) (kinds : ClassMap Term) {m : Monotype} (hm : P m)
    (n : Nat) : P (resolveWithin kinds n c m) := by
  induction n generalizing c m with
  | zero => exact hP.mapIndex _ hm
  | succ n ih =>
      refine hP.subst (hP.mapIndex _ hm) fun v => ?_
      split
      · exact hP.var v
      · rename_i rep hrep
        exact ih (hc.erase v.key) (hc v.key rep hrep)

end ClassMap

namespace TypeContext

variable {natives : InstructionSet}

/-! ## Unification -/

section Pervasive

variable {P : Monotype → Prop} {c : TypeContext}

theorem throughout_find (hc : c.classes.Throughout P) {m : Monotype} (hm : P m) : P (c.find m) :=
  hc.findWithin hm _

variable (hP : Monotype.Pervasive P)

include hP

theorem throughout_resolve (hc : c.classes.Throughout P) {m : Monotype} (hm : P m) : P (c.resolve m) :=
  hc.resolveWithin hP c.kinds hm _

omit hP in
/-- A step is recorded or a side cannot be written; the classes are left alone. -/
theorem record_keeps_throughout (action : UnifyAction) (left right : Except Fault String)
    (detail : String) :
    Keeps (fun c => c.known.types.Throughout P) (record action left right detail) := by
  intro c hc
  unfold record
  rw [Stateful.get_then]
  split
  · cases left with
    | error f => exact hc
    | ok left =>
        cases right with
        | error f => exact hc
        | ok right => exact hc
  · exact hc

omit hP in
/-- Index terms are no types. -/
theorem unifyKind_keeps_throughout (n : Nat) (s t : Term) :
    Keeps (fun c => c.known.types.Throughout P) (unifyKind natives n s t) :=
  unifyKind_keeps (fun c step hc => by rwa [known_noted]) (fun _ _ _ hc => hc) natives n s t

/-- Unifying types that have the property leaves nothing in the classes but such types, and of these
only what has been written when it was bound. -/
theorem unify_keeps_throughout {Q : Monotype → Prop} (hQ : ∀ {m}, Q m → P m)
    (hbound : ∀ {m}, P m → m.Legible → Q m) (n : Nat) {a b : Monotype} (ha : P a) (hb : P b) :
    Keeps (fun c => c.known.types.Throughout Q) (unify natives n a b) := by
  induction n generalizing a b with
  | zero => exact fun c hc => hc
  | succ n ih =>
      intro c hc
      have hc' : c.classes.Throughout P := fun key m hget => hQ (hc key m hget)
      have ha' : P (c.find a) := throughout_find hc' ha
      have hb' : P (c.find b) := throughout_find hc' hb
      have hcase := unifyCase natives n a b c
      generalize unify natives (n + 1) a b c = run at hcase ⊢
      cases hcase with
      | same step => simpa using hc
      | inside v m step => simpa using hc
      | bind v m step hmeets _ _ hlegible =>
          rw [endOf_ok, known_withType, known_noted]
          -- what is bound is one of the two representatives, and `bind` has written it
          refine hc.bind v.key (hbound ?_ hlegible)
          rcases hmeets.2 with ⟨-, hm⟩ | ⟨-, hm⟩
          · exact hm ▸ hb'
          · exact hm ▸ ha'
      | clash status step => simpa using hc
      | parts step =>
          have hparams : Keeps (fun c => c.known.types.Throughout Q)
              (pairwise (unify natives n) (c.find a).params (c.find b).params) :=
            keeps_pairwise fun p hp q hq => ih (hP.part ha' (Monotype.mem_parts_of_params hp))
              (hP.part hb' (Monotype.mem_parts_of_params hq))
          have hindex : Keeps (fun c => c.known.types.Throughout Q)
              (pairwise (unifyIndexWith (unify natives n) (unifyKind natives n)) (indexOf (c.find a))
                (indexOf (c.find b))) :=
            keeps_pairwise fun i hi j hj => keeps_andThen (unifyKind_keeps_throughout n i.1 j.1)
              (ih (hP.part ha' (Monotype.mem_parts_of_index hi))
                (hP.part hb' (Monotype.mem_parts_of_index hj)))
          refine keeps_andThen hparams hindex (c.noted step) ?_
          show (c.noted step).known.types.Throughout Q
          rwa [known_noted]
      | illegible m f => exact hc

end Pervasive

/-- What has to be written is in the classes or comes from the two types. -/
theorem Writes.has {P : Monotype → Prop} (hP : Monotype.Pervasive P) {c : TypeContext}
    (hc : c.known.types.Throughout P) {a b m : Monotype} (ha : P a) (hb : P b) (h : c.Writes a b m) :
    P m := by
  have hmeets {v : TypeVariable} {m : Monotype} (hm : Meets (.var v) m (c.find a) (c.find b)) : P m := by
    rcases hm.2 with ⟨-, rfl⟩ | ⟨-, rfl⟩
    · exact throughout_find hc hb
    · exact throughout_find hc ha
  cases h with
  | left => exact throughout_find hc ha
  | right => exact throughout_find hc hb
  | inside hm _ => exact throughout_resolve hP hc (hmeets hm)
  | bound hm _ => exact hmeets hm

/-- What is bound has been written. -/
theorem unify_keeps_legible (n : Nat) (a b : Monotype) :
    Keeps (fun c => c.known.types.Throughout Monotype.Legible) (unify natives n a b) :=
  unify_keeps_throughout Monotype.pervasive_true (fun _ => trivial) (fun _ h => h) n trivial trivial

end TypeContext

/-! ## Types without indices -/

theorem Monotype.pervasive_isIndexFree : Pervasive (·.isIndexFree = true) where
  var _ := rfl
  part hm hp := by
    rcases mem_parts.mp hp with hp | ⟨j, hj, -⟩
    · exact isIndexFree_of_mem_params hm hp
    · rw [indexOf_of_isIndexFree hm] at hj
      cases hj
  mapIndex f hm := by rwa [mapIndex_of_isIndexFree hm]
  subst hm hσ := isIndexFree_subst.mpr ⟨hm, fun v _ => hσ v⟩

/-- Type variables are bound to types without dependent instances, and index variables are not bound
at all. -/
structure Classes.IndexFree (c : Classes) : Prop where
  types : c.types.Throughout (·.isIndexFree = true)
  kinds : ∀ key, c.kinds.get? key = none

namespace TypeContext

variable {natives : InstructionSet}

/-- Without indices only the parameters are unified. -/
theorem unifyParts_of_isIndexFree {unifyType : Monotype → Monotype → ContextM Status}
    {unifyIndex : Term → Term → ContextM Status} {a b : Monotype} (ha : a.isIndexFree = true) :
    unifyParts unifyType unifyIndex a b =
      andThen (pairwise unifyType a.params b.params) (return .ok) := by
  rw [unifyParts, Monotype.indexOf_of_isIndexFree ha]
  rfl

/-- Unifying types without dependent instances leaves the classes without them. -/
theorem unify_keeps_indexFree (n : Nat) {a b : Monotype} (ha : a.isIndexFree = true)
    (hb : b.isIndexFree = true) : Keeps (fun c => c.known.IndexFree) (unify natives n a b) := by
  intro c hc
  refine ⟨unify_keeps_throughout Monotype.pervasive_isIndexFree id (fun h _ => h) n ha hb c hc.types, ?_⟩
  induction n generalizing a b c with
  | zero => exact hc.kinds
  | succ n ih =>
      have ha' : (c.find a).isIndexFree = true := throughout_find hc.types ha
      have hb' : (c.find b).isIndexFree = true := throughout_find hc.types hb
      have hcase := unifyCase natives n a b c
      generalize unify natives (n + 1) a b c = run at hcase ⊢
      cases hcase with
      | same step => simpa using hc.kinds
      | inside v m step => simpa using hc.kinds
      | bind v m step => simpa using hc.kinds
      | clash status step => simpa using hc.kinds
      | illegible m f => exact hc.kinds
      | parts step =>
          have hparams : Keeps (fun c => c.known.IndexFree)
              (pairwise (unify natives n) (c.find a).params (c.find b).params) := by
            refine keeps_pairwise fun p hp q hq d hd => ?_
            have hp' := Monotype.isIndexFree_of_mem_params ha' hp
            have hq' := Monotype.isIndexFree_of_mem_params hb' hq
            have htypes : Keeps (fun c => c.known.types.Throughout (·.isIndexFree = true))
                (unify natives n p q) :=
              unify_keeps_throughout Monotype.pervasive_isIndexFree id (fun h _ => h) n hp' hq'
            exact ⟨htypes d hd.types, ih hp' hq' d hd⟩
          rw [unifyParts_of_isIndexFree ha']
          refine (keeps_andThen hparams (.pure Status.ok) (c.noted step) ?_).kinds
          show (c.noted step).known.IndexFree
          rwa [known_noted]

end TypeContext

/-! ## Well split types -/

theorem Monotype.pervasive_isWellSplit : Pervasive (·.isWellSplit = true) where
  var _ := rfl
  part {m p} hm hp := by
    rcases mem_parts.mp hp with hp | ⟨j, hj, rfl⟩
    · cases m with
      | var v => cases hp
      | const c => cases hp
      | app c params => exact (isWellSplit_app.mp hm).2 p hp
      | inst c params index => exact (isWellSplit_inst.mp hm).1 p hp
    · cases m with
      | inst c params index => exact (isWellSplit_inst.mp hm).2 j hj
      | _ => cases hj
  mapIndex _ hm := isWellSplit_mapIndex.mpr hm
  subst hm hσ := isWellSplit_subst hm fun v _ => hσ v

namespace TypeContext

variable {natives : InstructionSet} {c : TypeContext} {a b : Monotype}

/-- Two types and everything that the classes bind variables to are well split. -/
structure WellSplit (c : TypeContext) (a b : Monotype) : Prop where
  classes : c.known.types.Throughout (·.isWellSplit = true)
  left : a.isWellSplit = true
  right : b.isWellSplit = true

/-- A property that holds of all three under a condition is one that `WellSplit` gives. -/
theorem WellSplit.throughout (c : TypeContext) (a b : Monotype) :
    c.known.types.Throughout fun m => c.WellSplit a b → m.isWellSplit = true :=
  fun key m hget h => h.classes key m hget

end TypeContext

end IndexedLambda
