import IndexedLambda.Proofs.Inference.IndexGeneralization
import IndexedLambda.Proofs.Term.Names
import IndexedLambda.Proofs.Unification.Confined
/-!
# What types and judgments mention

A region holds of a monotype that mentions only what is in it. Here this is said of bodies, types
and judgments too. All variables count, bound ones included: the binders of a polytype, the kind
binders of a dependent type, and the binders inside index terms. A dependent type is taken as the
instance that is indexed by its own kind binders, so everything about it follows from monotypes.

Opening a type and closing one over variables stay in a region, given that what is put in does.
-/

namespace IndexedLambda

/-! ## Dependent types as instances -/

theorem Body.indexedBySelf_subst (σ : TypeVariable → Monotype) (b : Body) :
    (b.subst σ).indexedBySelf = b.indexedBySelf.subst σ := by
  cases b with
  | mono m => rfl
  | dependent d =>
      show (d.subst σ).indexedBySelf = d.indexedBySelf.subst σ
      rw [DependentType.indexedBySelf_eq, DependentType.indexedBySelf_eq, Monotype.subst_inst]
      simp [DependentType.subst, DependentType.binders, Monotype.substList_eq_map,
        Monotype.substIndex_eq_map]

/-- A type that has been closed is the resolved one, with some of its variables bound. -/
theorem Inference.generalize_spec (s : Inference) (m : Monotype) :
    (s.generalize m).body.indexedBySelf = s.types.resolve m ∧
      ∀ v ∈ (s.generalize m).binders, v = .wildcard ∨ v ∈ (s.types.resolve m).occurrences := by
  unfold generalize
  generalize s.types.resolve m = n
  simp only
  split
  · refine ⟨?_, fun v hv => Or.inl (List.mem_singleton.mp hv)⟩
    split
    · exact Body.indexedBySelf_generalizeIndex _ _ _
    · rfl
  · refine ⟨?_, fun v hv => Or.inr ?_⟩
    · dsimp only
      split
      · exact Body.indexedBySelf_generalizeIndex _ _ _
      · rfl
    · exact Monotype.mem_freeVariables.mp (List.mem_filter.mp hv).1

/-- All that a body mentions apart from its own binders: of a dependent type the parameters, the kinds
of the binders and the index it has got. -/
def Body.frame : Body → Monotype
  | .mono m => m
  | .dependent d => .inst d.head (d.params ++ d.binders.map (·.2)) d.index

namespace Region

variable {R S : Region}

/-- The type mentions only what is in the region. -/
structure HoldsTy (R : Region) (y : Ty) : Prop where
  binders : ∀ v ∈ y.toPolytype.binders, R.types v
  body : R.Holds y.toPolytype.body.indexedBySelf

theorem HoldsTy.mono {y : Ty} (h : R.HoldsTy y) (hRS : R.Sub S) : S.HoldsTy y :=
  ⟨fun v hv => hRS.types v (h.binders v hv), h.body.mono hRS⟩

theorem holdsTy_bare {b : Body} : R.HoldsTy (.bare b) ↔ R.Holds b.indexedBySelf := by
  constructor
  · intro h
    exact h.body
  · intro h
    exact ⟨fun v hv => absurd hv (by simp [Ty.toPolytype]), h⟩

theorem holdsTy_mono {m : Monotype} : R.HoldsTy (.mono m) ↔ R.Holds m := holdsTy_bare

theorem holdsTy_toType {p : Polytype} (hbinders : ∀ v ∈ p.binders, R.types v)
    (hbody : R.Holds p.body.indexedBySelf) : R.HoldsTy p.toType := by
  unfold Polytype.toType
  split
  · exact holdsTy_bare.mpr hbody
  · exact ⟨hbinders, hbody⟩

/-! ## Opening -/

theorem Holds.frame {b : Body} (h : R.Holds b.indexedBySelf) : R.Holds b.frame := by
  cases b with
  | mono m => exact h
  | dependent d =>
      have hself : R.Holds d.indexedBySelf := h
      rw [DependentType.indexedBySelf_eq, holds_inst] at hself
      obtain ⟨hparams, hindex⟩ := hself
      obtain ⟨hindex, hbinders⟩ := List.forall_mem_append.mp hindex
      refine holds_inst.mpr ⟨List.forall_mem_append.mpr ⟨hparams, fun k hk => ?_⟩, hindex⟩
      obtain ⟨b, hb, rfl⟩ := List.mem_map.mp hk
      exact (hbinders _ (List.mem_map.mpr ⟨b, hb, rfl⟩)).2

theorem Holds.openedBy {b : Body} (h : R.Holds b.frame) {terms : List Term}
    (hterms : ∀ t ∈ terms, R.terms t) : R.Holds (b.openedBy terms) := by
  cases b with
  | mono m => exact h
  | dependent d =>
      obtain ⟨hparams, hindex⟩ := holds_inst.mp h
      obtain ⟨hparams, hkinds⟩ := List.forall_mem_append.mp hparams
      refine holds_inst.mpr ⟨hparams, List.forall_mem_append.mpr ⟨hindex, fun j hj => ?_⟩⟩
      obtain ⟨ht, hk⟩ := List.of_mem_zip hj
      exact ⟨hterms _ ht, hkinds _ hk⟩

theorem Holds.assign {vars : List TypeVariable} {types : List Monotype} {v : TypeVariable}
    (hv : R.types v) (htypes : ∀ m ∈ types, R.Holds m) :
    R.Holds (Monotype.assign (vars.zip types) v) := by
  rcases Monotype.assign_zip_cases vars types v with hself | hmem
  · rw [hself]
    exact holds_var.mpr hv
  · exact htypes _ hmem

theorem HoldsTy.openedBy {y : Ty} (hy : R.HoldsTy y) {types : List Monotype} {terms : List Term}
    (htypes : ∀ m ∈ types, R.Holds m) (hterms : ∀ t ∈ terms, R.terms t) :
    R.Holds (y.openedBy types terms) := by
  have hbody := hy.body.frame.openedBy hterms
  exact hbody.subst fun v hv => Holds.assign (hbody.types v hv) htypes

theorem Holds.instantiate {b : Body} {v : TypeVariable} {m : Monotype}
    (hb : R.Holds b.indexedBySelf) (hm : R.Holds m) :
    R.Holds (b.instantiate v m).indexedBySelf := by
  unfold Body.instantiate
  split
  · exact hb
  · rw [Body.indexedBySelf_subst]
    refine hb.subst fun w hw => ?_
    unfold Monotype.single
    split
    · exact hm
    · exact holds_var.mpr (hb.types w hw)

theorem HoldsTy.instantiate {p : Polytype} (hp : R.HoldsTy (.poly p)) {m : Monotype}
    (hm : R.Holds m) : R.HoldsTy (p.instantiate m) := by
  unfold Polytype.instantiate
  split
  · exact holdsTy_bare.mpr hp.body
  · rename_i v rest hbinders
    refine holdsTy_toType (fun w hw => hp.binders w ?_) (Holds.instantiate hp.body hm)
    show w ∈ p.binders
    rw [hbinders]
    exact List.mem_cons_of_mem v hw

/-! ## Closing -/

theorem HoldsTy.generalize {y : Ty} (hy : R.HoldsTy y) (hwildcard : R.types .wildcard) :
    R.HoldsTy (.poly y.generalize) := by
  cases y with
  | poly p => exact hy
  | bare b =>
      refine ⟨fun v hv => ?_, hy.body⟩
      rw [List.mem_singleton.mp hv]
      exact hwildcard

theorem holdsTy_generalize {s : Inference} {m : Monotype} (hm : R.Holds (s.types.resolve m))
    (hwildcard : R.types .wildcard) : R.HoldsTy (.poly (s.generalize m)) := by
  obtain ⟨hbody, hbinders⟩ := s.generalize_spec m
  refine ⟨fun v hv => ?_, ?_⟩
  · rcases hbinders v hv with rfl | hv
    · exact hwildcard
    · exact hm.types v hv
  · show R.Holds (s.generalize m).body.indexedBySelf
    rw [hbody]
    exact hm

end Region

/-! ## Data -/

/-- What goes in and out of a context: terms and types. A judgment is one of each. -/
inductive Datum where
  | term (t : Term)
  | type (y : Ty)

def Region.HoldsDatum (R : Region) : Datum → Prop
  | .term t => R.terms t
  | .type y => R.HoldsTy y

theorem Region.HoldsDatum.mono {R S : Region} {x : Datum} (h : R.HoldsDatum x) (hRS : R.Sub S) :
    S.HoldsDatum x := by
  cases x with
  | term t => exact hRS.terms t h
  | type y => exact Region.HoldsTy.mono h hRS

/-- Everything in the list mentions only what is in the region. -/
def Region.HoldsData (R : Region) (xs : List Datum) : Prop := ∀ x ∈ xs, R.HoldsDatum x

def Monotype.data (m : Monotype) : List Datum := [.type (.mono m)]

def Judgment.data (j : Judgment) : List Datum := [.term j.term, .type j.type]

def OpenAbs.data (premise : OpenAbs) : List Datum := premise.domain.data

def OpenLet.data (premise : OpenLet) : List Datum := [.term premise.assignment]

def Conclusion.data : Conclusion → List Datum
  | .concluded j => j.data
  | .failed _ => []

namespace Region

variable {R : Region}

theorem holdsData_nil : R.HoldsData [] := fun x hx => absurd hx (by simp)

theorem holdsData_term {t : Term} : R.HoldsData [.term t] ↔ R.terms t := by
  rw [HoldsData, List.forall_mem_singleton]
  rfl

theorem holdsData_type {y : Ty} : R.HoldsData [.type y] ↔ R.HoldsTy y := by
  rw [HoldsData, List.forall_mem_singleton]
  rfl

theorem holdsData_mono {m : Monotype} : R.HoldsData m.data ↔ R.Holds m :=
  holdsData_type.trans holdsTy_mono

theorem holdsData_judgment {j : Judgment} :
    R.HoldsData j.data ↔ R.terms j.term ∧ R.HoldsTy j.type := by
  rw [HoldsData, Judgment.data, List.forall_mem_cons, List.forall_mem_singleton]
  rfl

end Region

end IndexedLambda
