import IndexedLambda.Proofs.Inference.Fresh
import IndexedLambda.Proofs.Unification.Confined
/-!
# Old variables

A type variable is old as long as it is none of those that the counter of the context is still to
give out. What is known about old variables is not touched when a fresh one is drawn, so that a
fresh variable can be given any meaning. This needs that nothing in the context mentions a variable
that is to come: neither the classes (`Classes.Within`) nor Γ (`Inference.Numbered`). Unification
keeps to the variables of the two types and of the classes, and it leaves the counter alone.
-/

namespace IndexedLambda

/-! ## Classes over some variables -/

/-- The bound variables, and those that they are bound to, are all of one kind. -/
def Classes.Within (P : TypeVariable → Prop) (c : Classes) : Prop :=
  ∀ (v : TypeVariable) (m : Monotype), c.types.get? v.key = some m →
    P v ∧ ∀ w ∈ m.occurrences, P w

namespace Classes.Within

variable {P : TypeVariable → Prop} {c d : Classes}

theorem imp {Q : TypeVariable → Prop} (h : c.Within P) (hPQ : ∀ v, P v → Q v) : c.Within Q :=
  fun v m hget => ⟨hPQ v (h v m hget).1, fun w hw => hPQ w ((h v m hget).2 w hw)⟩

theorem confined (h : c.Within P) : c.Confined ⟨P, fun _ => True⟩ where
  type hget := ⟨(h _ _ hget).1, (h _ _ hget).2, fun _ _ => trivial⟩
  kind _ := ⟨trivial, trivial⟩

theorem resolve (h : c.Within P) (hc : c.Acyclic) {m : Monotype} (hm : ∀ v ∈ m.occurrences, P v) :
    ∀ w ∈ (c.resolve m).occurrences, P w :=
  (h.confined.resolve hc ⟨hm, fun _ _ => trivial⟩).types

theorem find_var (h : c.Within P) (hc : c.Acyclic) {v : TypeVariable} (hv : P v) :
    ∀ w ∈ (c.types.find (.var v)).occurrences, P w :=
  (h.confined.find_type hc (Region.holds_var.mpr hv)).types

theorem grows (h : c.Within P) (hgrows : Grows ⟨P, fun _ => True⟩ c d) : d.Within P := by
  intro v m hget
  obtain ⟨hv, hm⟩ := (h.confined.grows hgrows).type hget
  exact ⟨hv, hm.types⟩

end Classes.Within

namespace TypeContext

variable {c d : TypeContext}

/-! ## The counter -/

/-- The second context gives out variables of the same sequence, and no earlier ones. -/
structure Before (c d : TypeContext) : Prop where
  number : d.number = c.number
  nextVar : c.nextVar ≤ d.nextVar

theorem Before.refl (c : TypeContext) : Before c c := ⟨rfl, Nat.le_refl _⟩

theorem Before.trans {e : TypeContext} (h : Before c d) (h' : Before d e) : Before c e :=
  ⟨h'.number.trans h.number, Nat.le_trans h.nextVar h'.nextVar⟩

theorem Before.unify (h : Before c d) (natives : InstructionSet) (n : Nat) (a b : Monotype) :
    Before c (endOf (TypeContext.unify natives n a b d)) := by
  refine unify_keeps (fun d step hd => ?_) (fun d v m hd => ?_) (fun d v t hd => ?_)
    natives n a b d h
  · unfold noted
    split <;> exact ⟨hd.number, hd.nextVar⟩
  · exact ⟨hd.number, hd.nextVar⟩
  · exact ⟨hd.number, hd.nextVar⟩

/-- The variable is none of those that are still to come. -/
def Old (c : TypeContext) (v : TypeVariable) : Prop := ∀ k, c.nextVar ≤ k → v ≠ c.numbered k

theorem Before.old (h : Before c d) {v : TypeVariable} (hv : c.Old v) : d.Old v := by
  intro k hk
  have hnumbered : d.numbered k = c.numbered k := by rw [numbered, numbered, h.number]
  rw [hnumbered]
  exact hv k (Nat.le_trans h.nextVar hk)

/-- A variable that has been drawn is old. -/
theorem Before.old_numbered (h : Before c d) {k : Nat} (hk : k < d.nextVar) :
    d.Old (c.numbered k) := by
  intro i hi heq
  have hnumbered : d.numbered i = c.numbered i := by rw [numbered, numbered, h.number]
  rw [hnumbered] at heq
  have hki : k = i := numbered_inj heq
  omega

/-- Unification of types over variables of one kind leaves classes over such variables. -/
theorem unify_within {P : TypeVariable → Prop} (hc : c.known.Acyclic) (hP : c.known.Within P)
    {natives : InstructionSet} {n : Nat} {a b : Monotype} {status : Status}
    (ha : ∀ v ∈ a.occurrences, P v) (hb : ∀ v ∈ b.occurrences, P v)
    (hrun : unify natives n a b c = .ok status d) : d.known.Acyclic ∧ d.known.Within P := by
  have hgrows : Grows ⟨P, fun _ => True⟩ c.known (endOf (unify natives n a b c)).known :=
    unify_grows n hc ⟨hP.resolve hc ha, fun _ _ => trivial⟩ ⟨hP.resolve hc hb, fun _ _ => trivial⟩
  rw [hrun, endOf_ok] at hgrows
  exact ⟨hgrows.acyclic hc, hP.grows hgrows⟩

/-- Unification of types with old variables leaves classes with old variables. -/
theorem within_unify (hc : c.known.Acyclic) (hold : c.known.Within c.Old) {natives : InstructionSet}
    {n : Nat} {a b : Monotype} {status : Status} (ha : ∀ v ∈ a.occurrences, c.Old v)
    (hb : ∀ v ∈ b.occurrences, c.Old v) (hrun : unify natives n a b c = .ok status d) :
    Before c d ∧ d.known.Within d.Old := by
  have hbefore : Before c (endOf (unify natives n a b c)) := (Before.refl c).unify natives n a b
  rw [hrun, endOf_ok] at hbefore
  exact ⟨hbefore, (unify_within hc hold ha hb hrun).2.imp fun v hv => hbefore.old hv⟩

/-! ## Solutions -/

/-- Only what a substitution does to old variables matters for a solution. -/
theorem Solves.congr {σ σ' : TypeVariable → Monotype} (h : Solves σ c) (hc : c.known.Within c.Old)
    (hagree : ∀ v, c.Old v → σ' v = σ v) (hclasses : d.classes = c.classes) : Solves σ' d := by
  intro v m hget
  rw [hclasses] at hget
  obtain ⟨hv, hm⟩ := hc v m hget
  rw [hagree v hv, Monotype.subst_congr fun w hw => hagree w (hm w hw)]
  exact h v m hget

/-- Unification does not fail where there is a solution. At worst one of the types cannot be written. -/
theorem Plain.unify_solved (hc : Plain c) (hlegible : c.known.types.Throughout Monotype.Legible)
    {σ : TypeVariable → Monotype} (hσ : Solves σ c) (natives : InstructionSet) {a b : Monotype}
    (ha : a.isIndexFree = true) (hb : b.isIndexFree = true)
    (heq : (a.subst σ).Alike (b.subst σ)) :
    ∃ bound, (∃ d, (∀ n, bound ≤ n → TypeContext.unify natives n a b c = .ok .ok d) ∧
        Plain d ∧ Solves σ d) ∨
      ∃ f d, (∀ n, bound ≤ n → TypeContext.unify natives n a b c = .error f d) ∧
        f.IsCut ∧ ¬(a.Legible ∧ b.Legible) := by
  obtain ⟨result, bound, hrun, hstuck⟩ := hc.unify_settles hlegible natives ha hb
  cases result with
  | ok status d =>
      obtain ⟨rfl, hd, hσd⟩ :=
        unify_accepts bound ha hb heq c status d hc hσ (hrun bound (Nat.le_refl _))
      exact ⟨bound, .inl ⟨d, hrun, hd, hσd⟩⟩
  | error f d => exact ⟨bound, .inr ⟨f, d, hrun, hstuck f d rfl⟩⟩

end TypeContext

/-- Neither the classes nor Γ mention a variable that is still to come. -/
structure Inference.Numbered (s : Inference) : Prop where
  classes : s.types.known.Within s.types.Old
  symbols : ∀ x, ∀ j ∈ s.symbols.bindings x, ∀ v, j.type.scheme.Free v → s.types.Old v

namespace Inference

variable {s s' : Inference}

theorem before_drawTypes (n : Nat) (s : Inference) : s.types.Before (drawTypes n s).types :=
  ⟨rfl, Nat.le_add_right _ n⟩

end Inference

end IndexedLambda
