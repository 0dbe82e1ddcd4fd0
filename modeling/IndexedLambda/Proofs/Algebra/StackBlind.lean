import IndexedLambda.Algebra.Rule
import IndexedLambda.Proofs.Inference.Fresh
import IndexedLambda.Proofs.Unification.Inessential
/-!
# Operations that do not know the stack

The context that unification works on has the stack of the type algebra in it. Unification and the
operations of the algebra never look there: run with another stack they do the same, and leave that
stack as they have found it (`StackBlind`). So an operation can be studied in the context that a rule
was applied in, although by the time it runs its operands have been popped.

`Tame` adds which errors an operation can end in. Only one is possible, two types that cannot be
unified; everything else that stops an operation is a fault.
-/

namespace IndexedLambda

/-! ## Computations that do not know the stack -/

section StackBlind

variable {ε α β : Type}

/-- The result with another stack. -/
def restack (stack : List Ty) : EStateM.Result ε TypeContext α → EStateM.Result ε TypeContext α
  | .ok a c => .ok a { c with stack }
  | .error e c => .error e { c with stack }

/-- The computation neither reads nor changes the stack. -/
def StackBlind (x : EStateM ε TypeContext α) : Prop :=
  ∀ (c : TypeContext) (stack : List Ty), x { c with stack } = restack stack (x c)

namespace StackBlind

theorem pure (a : α) : StackBlind (Pure.pure a : EStateM ε TypeContext α) := fun _ _ => rfl

theorem throw (e : ε) : StackBlind (MonadExcept.throw e : EStateM ε TypeContext α) := fun _ _ => rfl

theorem ofExcept (x : Except Fault α) : StackBlind (IndexedLambda.ofExcept x : ContextM α) := by
  cases x with
  | ok a => exact .pure a
  | error f => exact .throw f

theorem bind {x : EStateM ε TypeContext α} {f : α → EStateM ε TypeContext β} (hx : StackBlind x)
    (hf : ∀ a, StackBlind (f a)) : StackBlind (x >>= f) := by
  intro c stack
  have hrestack := hx c stack
  cases hrun : x c with
  | ok a d =>
      rw [hrun] at hrestack
      rw [Stateful.bind_of_ok hrun, Stateful.bind_of_ok hrestack]
      exact hf a d stack
  | error e d =>
      rw [hrun] at hrestack
      rw [Stateful.bind_of_error hrun, Stateful.bind_of_error hrestack]
      rfl

/-- What is read of the context may be anything but the stack. -/
theorem get_then {f : TypeContext → EStateM ε TypeContext α}
    (hread : ∀ (c : TypeContext) (stack : List Ty), f { c with stack } = f c)
    (hf : ∀ c, StackBlind (f c)) : StackBlind (get >>= f) := by
  intro c stack
  rw [Stateful.get_then, Stateful.get_then, hread]
  exact hf c c stack

theorem lift {x : ContextM α} (hx : StackBlind x) : StackBlind x.toAlgebra := by
  intro c stack
  unfold ContextM.toAlgebra
  rw [hx c stack]
  cases x c with
  | ok a d => rfl
  | error f d => rfl

/-- Another stack is an inessential change. -/
theorem restacked_inessential (stack : List Ty) : TypeContext.Inessential (fun _ => True)
    (fun _ => False) fun c => { c with stack } where
  known _ := rfl
  noted c step := by
    unfold TypeContext.noted
    simp only
    split <;> rfl
  withType _ _ _ := rfl
  withKind _ _ _ := rfl
  recorded action a b _ _ detail c _ := by
    refine .inl ?_
    unfold TypeContext.record
    rw [Stateful.get_then, Stateful.get_then]
    simp only
    split
    · cases a.render with
      | ok left =>
          cases b.render with
          | ok right => rfl
          | error f => rfl
      | error f => rfl
    · rfl

theorem unify (natives : InstructionSet) (n : Nat) (a b : Monotype) :
    StackBlind (TypeContext.unify natives n a b) := by
  intro c stack
  rcases TypeContext.CommutesWith.unify (restacked_inessential stack) Monotype.pervasive_true natives n
    trivial trivial c (fun _ _ _ => trivial) with hcommutes | ⟨f, d, -, hexcused⟩
  · rw [hcommutes]
    cases TypeContext.unify natives n a b c with
    | ok status d => rfl
    | error f d => rfl
  · exact hexcused.elim

theorem fresh : StackBlind TypeContext.fresh := by
  refine .bind (fun c stack => ?_) fun _ => .pure _
  rw [TypeContext.freshVar_eq, TypeContext.freshVar_eq]
  by_cases hroom : c.nextVar + 1 < counterRange
  · rw [if_pos hroom, if_pos hroom]
    rfl
  · rw [if_neg hroom, if_neg hroom]
    rfl

end StackBlind

/-! ## Operations of the algebra -/

namespace Algebra

/-- Takes a type apart as a pair and answers with a type made from the components, as the two
projections do. -/
def projectBy (ev : Evaluator) (part : Monotype → Monotype → Monotype) (a : Monotype) :
    AlgebraM Monotype := do
  let v ← TypeContext.fresh
  let w ← TypeContext.fresh
  require ev a (.pair v w)
  representative (part v w)

/-- Replaces binders one after the other, each by a fresh variable, as a declaration does. -/
def instantiateEach (binders : List TypeVariable) (b : Body) : AlgebraM Body :=
  binders.foldlM (fun b v => do return b.instantiate v (← TypeContext.fresh)) b

variable {ev : Evaluator} {a b : Monotype} {c d : TypeContext}

theorem toAlgebra_eq_ok {x : ContextM α} {y : α} : x.toAlgebra c = .ok y d ↔ x c = .ok y d := by
  unfold ContextM.toAlgebra
  cases x c with
  | ok z e => simp
  | error f e => simp

theorem toAlgebra_of_error {x : ContextM α} {f : Fault} (h : x c = .error f d) :
    x.toAlgebra c = .error (.fault f) d := by
  rw [ContextM.toAlgebra, h]

theorem fresh_of_room (hroom : c.nextVar + 1 < counterRange) : TypeContext.fresh.toAlgebra c =
    .ok (.var (c.numbered c.nextVar)) { c with nextVar := c.nextVar + 1 } := by
  have hvar := c.freshVar_eq
  rw [if_pos hroom] at hvar
  exact toAlgebra_eq_ok.mpr (Stateful.bind_of_ok hvar)

theorem fresh_of_full (hfull : ¬c.nextVar + 1 < counterRange) :
    TypeContext.fresh.toAlgebra c = .error (.fault .overflow) c := by
  have hvar := c.freshVar_eq
  rw [if_neg hfull] at hvar
  exact toAlgebra_of_error (Stateful.bind_of_error hvar)

theorem require_of_ok (h : TypeContext.unify ev.natives ev.fuel a b c = .ok .ok d) :
    require ev a b c = .ok () d :=
  Stateful.bind_of_ok (toAlgebra_eq_ok.mpr h)

/-- What is said about two types that cannot be unified. A type that cannot be written makes it a
fault. -/
def complaint (status : Status) : Except Fault String → Except Fault String → Refusal
  | .ok left, .ok right => .error (.unification status left right)
  | .ok _, .error f => .fault f
  | .error f, _ => .fault f

theorem complaint_cases (status : Status) (left right : Except Fault String) :
    (∃ l r, complaint status left right = .error (.unification status l r)) ∨
      ∃ f, (left = .error f ∨ right = .error f) ∧ complaint status left right = .fault f := by
  cases left with
  | ok l =>
      cases right with
      | ok r => exact .inl ⟨l, r, rfl⟩
      | error f => exact .inr ⟨f, .inr rfl, rfl⟩
  | error f => exact .inr ⟨f, .inl rfl, rfl⟩

theorem require_of_mismatch {status : Status} (hstatus : status ≠ .ok)
    (h : TypeContext.unify ev.natives ev.fuel a b c = .ok status d) : require ev a b c =
      .error (complaint status (d.resolve a).render (d.resolve b).render) d := by
  refine (Stateful.bind_of_ok (toAlgebra_eq_ok.mpr h)).trans ?_
  rw [if_neg hstatus, Stateful.get_then]
  cases (d.resolve a).render with
  | ok left =>
      cases (d.resolve b).render with
      | ok right => rfl
      | error f => rfl
  | error f => rfl

theorem require_of_fault {f : Fault}
    (h : TypeContext.unify ev.natives ev.fuel a b c = .error f d) :
    require ev a b c = .error (.fault f) d := Stateful.bind_of_error (toAlgebra_of_error h)

/-- Two types are what is required only if they have been unified. -/
theorem unify_of_require {u : Unit} (h : require ev a b c = .ok u d) :
    TypeContext.unify ev.natives ev.fuel a b c = .ok .ok d := by
  cases hrun : TypeContext.unify ev.natives ev.fuel a b c with
  | ok status e =>
      by_cases hstatus : status = .ok
      · subst hstatus
        rw [require_of_ok hrun] at h
        cases h
        rfl
      · cases (require_of_mismatch hstatus hrun).symm.trans h
  | error f e => cases (require_of_fault hrun).symm.trans h

end Algebra

/-- The operation does not know the stack, and the only error it makes is that two types cannot be
unified. -/
structure Tame (x : AlgebraM α) : Prop where
  stackBlind : StackBlind x
  error : ∀ c e d, x c = .error (.error e) d →
    ∃ status left right, status ≠ .ok ∧ e = .unification status left right

namespace Tame

theorem pure (a : α) : Tame (Pure.pure a) := ⟨.pure a, fun _ _ _ h => by cases h⟩

theorem bind {x : AlgebraM α} {f : α → AlgebraM β} (hx : Tame x) (hf : ∀ a, Tame (f a)) :
    Tame (x >>= f) := by
  refine ⟨.bind hx.stackBlind fun a => (hf a).stackBlind, fun c e d h => ?_⟩
  cases hrun : x c with
  | ok a c' =>
      rw [Stateful.bind_of_ok hrun] at h
      exact (hf a).error c' e d h
  | error e' c' =>
      rw [Stateful.bind_of_error hrun] at h
      cases h
      exact hx.error c e _ hrun

theorem fresh : Tame (TypeContext.fresh.toAlgebra) := by
  refine ⟨.lift .fresh, fun c e d h => ?_⟩
  unfold ContextM.toAlgebra at h
  split at h <;> cases h

theorem require (ev : Evaluator) (a b : Monotype) : Tame (Algebra.require ev a b) := by
  constructor
  · refine .bind (.lift (.unify ev.natives ev.fuel a b)) fun status => ?_
    split
    · exact .pure _
    · exact .get_then (fun _ _ => rfl) fun c =>
        .bind (.lift (.ofExcept _)) fun _ => .bind (.lift (.ofExcept _)) fun _ => .throw _
  · intro c e d h
    cases hrun : TypeContext.unify ev.natives ev.fuel a b c with
    | ok status c' =>
        by_cases hstatus : status = .ok
        · rw [Algebra.require_of_ok (hstatus ▸ hrun)] at h
          cases h
        · rw [Algebra.require_of_mismatch hstatus hrun] at h
          rcases Algebra.complaint_cases status (c'.resolve a).render (c'.resolve b).render with
            ⟨left, right, hcomplaint⟩ | ⟨f, -, hcomplaint⟩
          · rw [hcomplaint] at h
            cases h
            exact ⟨status, left, right, hstatus, rfl⟩
          · rw [hcomplaint] at h
            cases h
    | error f c' =>
        rw [Algebra.require_of_fault hrun] at h
        cases h

theorem representative (m : Monotype) : Tame (Algebra.representative m) :=
  ⟨.get_then (fun _ _ => rfl) fun _ => .pure _, fun _ _ _ h => by cases h⟩

end Tame

end StackBlind

end IndexedLambda
