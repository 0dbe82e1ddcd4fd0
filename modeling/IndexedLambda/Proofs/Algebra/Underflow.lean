import IndexedLambda.Proofs.Algebra.StackDiscipline
/-!
# Underflow

A rule that finds too few types on the stack says how many it needs and how many there are. Ten of the
eleven built-in rules look for all their operands before they pop any (`ReportsUnderflow`), so the numbers
are those of the rule and of the stack, whatever the types on it look like.

Instantiation pops in two steps. It looks for one monotype first and then, on what is left, for one
polytype. Too short a stack therefore makes it complain about one of the two steps: it needs one type and
finds none, even if there is one, or the one type is no monotype, which a type that cannot be written
turns into a fault. The monotype goes back, so nothing changes in any case.
-/

namespace IndexedLambda

/-- Fewer than `n` types on the stack are an underflow: it is reported with these numbers, and nothing
changes. -/
def ReportsUnderflow {α : Type} (n : Nat) (x : AlgebraM α) : Prop :=
  ∀ c : TypeContext, c.stack.length < n →
    x c = .error (.error (.stackUnderflow n c.stack.length)) c

namespace ReportsUnderflow

variable {α β : Type} {n : Nat}

theorem bind {x : AlgebraM α} (hx : ReportsUnderflow n x) (f : α → AlgebraM β) :
    ReportsUnderflow n (x >>= f) := by
  intro c hshort
  exact Stateful.bind_of_error (hx c hshort)

/-- The length of the stack is looked at before any type on it. -/
theorem popMany (want : Ty → Except Refusal α) (n : Nat) :
    ReportsUnderflow n (Stack.popMany want n) := by
  intro c hshort
  exact Stack.popMany_of_error (if_pos hshort)

theorem popOne (want : Ty → Except Refusal α) : ReportsUnderflow 1 (Stack.popOne want) :=
  (popMany want 1).bind _

theorem unary (f : Monotype → AlgebraM Monotype) : ReportsUnderflow 1 (Rule.unary f) :=
  (popOne Stack.wantMonotype).bind _

theorem binary (f : Monotype → Monotype → AlgebraM Monotype) : ReportsUnderflow 2 (Rule.binary f) :=
  (popMany Stack.wantMonotype 2).bind _

end ReportsUnderflow

theorem Stack.popOne_unwanted {α : Type} {want : Ty → Except Refusal α} {c : TypeContext} {y : Ty}
    {rest : List Ty} {refusal : Refusal} (hstack : c.stack = y :: rest)
    (hwant : want y = .error refusal) : popOne want c = .error refusal c := by
  have htop : takeTop want 1 c.stack = .error refusal := by
    rw [hstack, takeTop, if_neg (by simp)]
    show ([y].mapM want >>= _) = _
    rw [List.mapM_cons, hwant]
    rfl
  exact Stateful.bind_of_error (popMany_of_error htop)

namespace BuiltinRule

/-- Every rule but one looks for all its operands at once. -/
theorem reportsUnderflow (ev : Evaluator) {r : BuiltinRule} (hr : r ≠ .instantiation) :
    ReportsUnderflow r.arity (r.rule ev) := by
  cases r with
  | application | construction | expansion => exact .binary _
  | abstraction | headSeparation | tailSeparation | disjunction => exact .unary _
  | realization => exact (ReportsUnderflow.popMany Stack.wantMonotype 3).bind _
  | contextualization => exact ((ReportsUnderflow.popMany Stack.wantType 2).bind _).bind _
  | generalization => exact (ReportsUnderflow.popOne Stack.wantType).bind _
  | instantiation => exact absurd rfl hr

/-- What is wrong with a stack of fewer than two types, as instantiation sees it. -/
inductive ShortForInstantiation : List Ty → Refusal → Prop
  /-- There is no type for the first step. -/
  | empty : ShortForInstantiation [] (.error (.stackUnderflow 1 0))
  /-- There is no type left for the second step. -/
  | monotype (m : Monotype) : ShortForInstantiation [.mono m] (.error (.stackUnderflow 1 0))
  /-- The first step finds a type of the wrong sort. -/
  | unwanted {y : Ty} : y.asMonotype = none →
      ShortForInstantiation [y] (Stack.refuse .expectedMonotype y)

theorem ShortForInstantiation.ne_underflow {stack : List Ty} {refusal : Refusal}
    (h : ShortForInstantiation stack refusal) :
    refusal ≠ .error (.stackUnderflow 2 stack.length) := by
  cases h with
  | empty => simp
  | monotype m => simp
  | unwanted _ =>
      unfold Stack.refuse
      split <;> simp

/-- The two steps of instantiation on a stack that is too short. The monotype of the first step is back
on the stack in the end. -/
theorem instantiation_short {c : TypeContext} (hshort : c.stack.length < 2) :
    ∃ refusal, ShortForInstantiation c.stack refusal ∧ Rule.instantiation c = .error refusal c := by
  rcases hstack : c.stack with _ | ⟨y, _ | ⟨z, rest⟩⟩
  · have hempty : c.stack.length = 0 := by simp [hstack]
    have hpop := ReportsUnderflow.popOne Stack.wantMonotype c (by omega)
    rw [hempty] at hpop
    exact ⟨_, .empty, Stateful.bind_of_error hpop⟩
  · rcases Stack.popOne_cases Stack.sorts_monotype c with ⟨m, rest, htop, hpop⟩ | ⟨hnone, -⟩
    · obtain ⟨rfl, rfl⟩ : y = .mono m ∧ [] = rest := by
        simpa [hstack] using htop
      have hbelow := ReportsUnderflow.popOne Stack.wantPolytype { c with stack := [] } (by simp)
      refine ⟨_, .monotype m, (Stateful.bind_of_ok hpop).trans (Stateful.bind_of_error
        ((tryCatch_of_error hbelow).trans ?_))⟩
      show EStateM.Result.error _ { c with stack := [.mono m] } = _
      rw [← hstack]
      rfl
    · have hwant : Stack.wantMonotype y = .error (Stack.refuse .expectedMonotype y) ∧
          y.asMonotype = none := by
        rcases y with ⟨m | d⟩ | p
        · exact absurd hstack (hnone m [])
        · exact ⟨rfl, rfl⟩
        · exact ⟨rfl, rfl⟩
      exact ⟨_, .unwanted hwant.2, Stateful.bind_of_error (Stack.popOne_unwanted hstack hwant.1)⟩
  · have hlength : c.stack.length = rest.length + 2 := by simp [hstack]
    omega

end BuiltinRule

namespace RuleTable

/-- **Underflow.** Take a built-in rule of any table that extends the built-in one, called by its number
or by its name, on a stack with fewer types than the rule takes, of whatever sorts. It fails and changes
nothing. The error is an underflow with the number of operands of the rule and the length of the stack
exactly if the rule is not instantiation; instantiation complains about one of its two steps, unless the
type that it would have to name cannot be written. -/
theorem underflow_reported_iff {ev : Evaluator} {table : RuleTable} {r : BuiltinRule} {c : TypeContext}
    (htable : (builtin ev).rules <+: table.rules) (hshort : c.stack.length < r.arity) :
    ∃ refusal, table.apply r.id c = .error refusal c ∧ table.applyNamed r.name c = .error refusal c ∧
      (refusal = .error (.stackUnderflow r.arity c.stack.length) ↔ r ≠ .instantiation) ∧
      (r = .instantiation → BuiltinRule.ShortForInstantiation c.stack refusal) := by
  -- a rule that fails pushes nothing
  have happly {refusal : Refusal} (hrule : r.rule ev c = .error refusal c) :
      table.apply r.id c = .error refusal c ∧ table.applyNamed r.name c = .error refusal c := by
    rw [applyNamed_eq htable, apply_eq htable, and_self]
    exact Stateful.bind_of_error hrule
  by_cases hr : r = .instantiation
  · subst hr
    obtain ⟨refusal, hwrong, hrule⟩ := BuiltinRule.instantiation_short hshort
    obtain ⟨hid, hname⟩ := happly hrule
    exact ⟨refusal, hid, hname, iff_of_false hwrong.ne_underflow (by simp), fun _ => hwrong⟩
  · obtain ⟨hid, hname⟩ := happly (r.reportsUnderflow ev hr c hshort)
    exact ⟨_, hid, hname, iff_of_true rfl hr, fun h => absurd h hr⟩

/-- Case analysis needs three monotypes. On a stack with two types that are none, the number is what it
complains about. -/
theorem underflow_reported_of_realization :
    let ev : Evaluator := ⟨fun _ _ => .fail none, 20⟩
    let c : TypeContext := { TypeContext.startingAt 0 0 with
      stack := [.poly ⟨[.wildcard], .mono (.named "a")⟩, .poly ⟨[], .mono (.plain "A")⟩] }
    c.stack.length < BuiltinRule.realization.arity ∧
      (builtin ev).apply 7 c = .error (.error (.stackUnderflow 3 2)) c ∧
      (builtin ev).applyNamed "realization" c = .error (.error (.stackUnderflow 3 2)) c := by
  intro ev c
  have hshort : c.stack.length < BuiltinRule.realization.arity := by decide
  obtain ⟨refusal, hid, hname, hunderflow, -⟩ :=
    underflow_reported_iff (List.prefix_refl (builtin ev).rules) hshort
  obtain rfl : refusal = .error (.stackUnderflow 3 2) := hunderflow.mpr (by simp)
  exact ⟨hshort, hid, hname⟩

/-- Instantiation takes two types. On a stack with one it says that it needs one and has found none. -/
theorem instantiation_misreports_underflow :
    let ev : Evaluator := ⟨fun _ _ => .fail none, 20⟩
    let c : TypeContext := { TypeContext.startingAt 0 0 with stack := [.mono (.plain "Int")] }
    c.stack.length = 1 ∧ BuiltinRule.instantiation.arity = 2 ∧
      (builtin ev).apply BuiltinRule.instantiation.id c = .error (.error (.stackUnderflow 1 0)) c ∧
      AlgebraError.stackUnderflow 1 0 ≠ .stackUnderflow 2 1 := by
  intro ev c
  exact ⟨rfl, rfl, rfl, by simp⟩

end RuleTable

end IndexedLambda
