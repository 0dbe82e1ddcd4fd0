import IndexedLambda.Proofs.Algebra.StackBlind
/-!
# Operands of the built-in rules

A rule of the type algebra takes its operands off the stack and then works on them like a function
that does not know the stack. Popping is all or nothing, for types of one sort (`Sorts`). `Takes` says
of a rule which operands it takes and with which operation it goes on; a rule that does not find such
operands leaves the context alone.

`BuiltinRule` lists the built-in rules. `BuiltinRule.Performs` is the operation behind each of them, on
the operands in the order in which they were pushed, and `BuiltinRule.takes` is what the rest of the
theory knows about their stack work.
-/

namespace IndexedLambda

/-! ## Handled errors -/

section Handled

variable {ε α : Type} {x : EStateM ε TypeContext α} {handle : ε → EStateM ε TypeContext α}
  {c d : TypeContext}

theorem tryCatch_of_error {e : ε} (h : x c = .error e d) :
    MonadExcept.tryCatch x handle c = handle e d := by
  show EStateM.tryCatch x handle c = _
  unfold EStateM.tryCatch
  rw [h]
  rfl

end Handled

/-! ## Popping -/

/-- The operands are missing or of the wrong sort. -/
def AlgebraError.isOperandError : AlgebraError → Bool
  | .stackUnderflow _ _ | .expectedMonotype _ | .expectedPolytype _ => true
  | _ => false

/-- How operands are turned down: with an error about them, or with the fault of a type among them that
cannot be written for the error. -/
inductive Refusal.Unfit (ys : List Ty) : Refusal → Prop
  | error {e : AlgebraError} : e.isOperandError = true → Unfit ys (.error e)
  | fault {y : Ty} {f : Fault} : y ∈ ys → y.render = .error f → Unfit ys (.fault f)

theorem Refusal.Unfit.mono {ys zs : List Ty} {refusal : Refusal} (h : refusal.Unfit ys)
    (hsub : ∀ y ∈ ys, y ∈ zs) : refusal.Unfit zs := by
  cases h with
  | error he => exact .error he
  | fault hy hf => exact .fault (hsub _ hy) hf

/-- What is wanted of the types on the stack is that they are of one sort. -/
structure Sorts {α : Type} (want : Ty → Except Refusal α) (view : α → Ty) : Prop where
  ok_iff : ∀ y a, want y = .ok a ↔ y = view a
  unfit : ∀ y refusal, want y = .error refusal → refusal.Unfit [y]

namespace Stack

theorem unfit_refuse {error : String → AlgebraError} (herror : ∀ text, (error text).isOperandError = true)
    (y : Ty) : (refuse error y).Unfit [y] := by
  unfold refuse
  split
  · exact .error (herror _)
  · rename_i f hf
    exact .fault List.mem_cons_self hf

theorem sorts_monotype : Sorts wantMonotype Ty.mono where
  ok_iff y a := by
    unfold wantMonotype
    split
    · rw [Except.ok.injEq, Ty.mono, Ty.bare.injEq, Body.mono.injEq]
    · rename_i hnot
      exact iff_of_false (by simp) fun h => hnot a h
  unfit y refusal h := by
    unfold wantMonotype at h
    split at h
    · cases h
    · cases h
      exact unfit_refuse (fun _ => rfl) y

variable {α : Type} {want : Ty → Except Refusal α} {view : α → Ty}

theorem mapM_eq_ok (hwant : Sorts want view) {ys : List Ty} {as : List α} :
    ys.mapM want = .ok as ↔ ys = as.map view := by
  induction ys generalizing as with
  | nil =>
      rw [List.mapM_nil]
      show Except.ok [] = .ok as ↔ _
      rw [Except.ok.injEq]
      cases as <;> simp
  | cons y ys ih =>
      rw [List.mapM_cons, bind_eq_ok]
      constructor
      · rintro ⟨a, ha, hrest⟩
        obtain ⟨bs, hbs, hcons⟩ := bind_eq_ok.mp hrest
        cases hcons
        rw [(hwant.ok_iff y a).mp ha, ih.mp hbs, List.map_cons]
      · intro h
        cases as with
        | nil => cases h
        | cons a as =>
            obtain ⟨hy, hys⟩ := List.cons.inj h
            exact ⟨a, (hwant.ok_iff y a).mpr hy, bind_eq_ok.mpr ⟨as, ih.mpr hys, rfl⟩⟩

theorem mapM_error (hwant : Sorts want view) {ys : List Ty} {refusal : Refusal}
    (h : ys.mapM want = .error refusal) : refusal.Unfit ys := by
  induction ys with
  | nil => cases h
  | cons y ys ih =>
      rw [List.mapM_cons] at h
      rcases bind_eq_error.mp h with hy | ⟨a, -, h⟩
      · exact (hwant.unfit y refusal hy).mono (by simp)
      · rcases bind_eq_error.mp h with hys | ⟨as, -, h⟩
        · exact (ih hys).mono fun z hz => List.mem_cons_of_mem y hz
        · cases h

theorem popMany_of_ok {n : Nat} {c : TypeContext} {tops : List α} {rest : List Ty}
    (h : takeTop want n c.stack = .ok (tops, rest)) :
    popMany want n c = .ok tops { c with stack := rest } := by
  unfold popMany
  rw [Stateful.get_then, h]
  rfl

theorem popMany_of_error {n : Nat} {c : TypeContext} {refusal : Refusal}
    (h : takeTop want n c.stack = .error refusal) : popMany want n c = .error refusal c := by
  unfold popMany
  rw [Stateful.get_then, h]
  rfl

/-- Several types are popped if there are enough and all are of the sort; otherwise nothing is. -/
theorem popMany_cases (hwant : Sorts want view) (n : Nat) (c : TypeContext) :
    (∃ (as : List α) (rest : List Ty), c.stack = (as.map view).reverse ++ rest ∧ as.length = n ∧
      popMany want n c = .ok as.reverse { c with stack := rest }) ∨
    (∀ (as : List α) (rest : List Ty), c.stack = (as.map view).reverse ++ rest → as.length ≠ n) ∧
      ∃ refusal : Refusal, refusal.Unfit (c.stack.take n) ∧ popMany want n c = .error refusal c := by
  have hok := fun tops rest => @popMany_of_ok α want n c tops rest
  have herror := fun refusal => @popMany_of_error α want n c refusal
  unfold takeTop at hok herror
  by_cases hshort : c.stack.length < n
  · rw [if_pos hshort] at herror
    refine .inr ⟨fun as rest hstack hlength => ?_, _, .error rfl, herror _ rfl⟩
    rw [hstack, List.length_append, List.length_reverse, List.length_map] at hshort
    omega
  · rw [if_neg hshort] at hok herror
    cases hmap : (c.stack.take n).reverse.mapM want with
    | ok as =>
        rw [hmap] at hok
        have htop : (c.stack.take n).reverse = as.map view := (mapM_eq_ok hwant).mp hmap
        refine .inl ⟨as, c.stack.drop n, ?_, ?_, hok _ _ rfl⟩
        · rw [← htop, List.reverse_reverse, List.take_append_drop]
        · have hlength := congrArg List.length htop
          rw [List.length_reverse, List.length_take, List.length_map] at hlength
          omega
    | error refusal =>
        rw [hmap] at herror
        have hunfit := (mapM_error hwant hmap).mono fun y hy => List.mem_reverse.mp hy
        refine .inr ⟨fun as rest hstack hlength => ?_, refusal, hunfit, herror _ rfl⟩
        have hlength' : (as.map view).reverse.length = n := by
          rw [List.length_reverse, List.length_map, hlength]
        have htop : (c.stack.take n).reverse = as.map view := by
          rw [hstack, ← hlength', List.take_left, List.reverse_reverse]
        rw [(mapM_eq_ok hwant).mpr htop] at hmap
        cases hmap

theorem popOne_cases (hwant : Sorts want view) (c : TypeContext) :
    (∃ a rest, c.stack = view a :: rest ∧ popOne want c = .ok a { c with stack := rest }) ∨
    (∀ a rest, c.stack ≠ view a :: rest) ∧
      ∃ refusal : Refusal, refusal.Unfit (c.stack.take 1) ∧ popOne want c = .error refusal c := by
  rcases popMany_cases hwant 1 c with ⟨as, rest, hstack, hlength, hrun⟩ | ⟨hnone, e, he, hrun⟩
  · obtain ⟨a, rfl⟩ := List.length_eq_one_iff.mp hlength
    exact .inl ⟨a, rest, hstack, Stateful.bind_of_ok hrun⟩
  · exact .inr ⟨fun a rest hstack => hnone [a] rest hstack rfl, e, he, Stateful.bind_of_error hrun⟩

end Stack

/-! ## The built-in rules -/

/-- The built-in rules, in the order of their numbers. -/
inductive BuiltinRule where
  | application
  | abstraction
  | construction
  | headSeparation
  | tailSeparation
  | disjunction
  | expansion
  | realization
  | contextualization
  | instantiation
  | generalization
  deriving DecidableEq

namespace BuiltinRule

def id : BuiltinRule → Nat
  | application => 0
  | abstraction => 1
  | construction => 2
  | headSeparation => 3
  | tailSeparation => 4
  | disjunction => 5
  | expansion => 6
  | realization => 7
  | contextualization => 8
  | instantiation => 9
  | generalization => 10

def name : BuiltinRule → String
  | application => "application"
  | abstraction => "abstraction"
  | construction => "construction"
  | headSeparation => "head-separation"
  | tailSeparation => "tail-separation"
  | disjunction => "disjunction"
  | expansion => "expansion"
  | realization => "realization"
  | contextualization => "contextualization"
  | instantiation => "instantiation"
  | generalization => "generalization"

/-- How many types the rule takes off the stack. -/
def arity : BuiltinRule → Nat
  | realization => 3
  | application | construction | expansion | contextualization | instantiation => 2
  | abstraction | headSeparation | tailSeparation | disjunction | generalization => 1

/-- How many fresh variables the rule makes. -/
def drawn : BuiltinRule → Nat
  | realization => 3
  | headSeparation | tailSeparation => 2
  | application | abstraction | disjunction => 1
  | construction | expansion | contextualization | instantiation | generalization => 0

def rule (ev : Evaluator) : BuiltinRule → Rule
  | application => Rule.application ev
  | abstraction => Rule.abstraction
  | construction => Rule.construction
  | headSeparation => Rule.headSeparation ev
  | tailSeparation => Rule.tailSeparation ev
  | disjunction => Rule.disjunction
  | expansion => Rule.expansion
  | realization => Rule.realization ev
  | contextualization => Rule.contextualization
  | instantiation => Rule.instantiation
  | generalization => Rule.generalization

theorem getElem?_builtin (ev : Evaluator) (r : BuiltinRule) :
    (RuleTable.builtin ev).rules[r.id]? = some (r.name, r.rule ev) := by
  cases r <;> rfl

/-- The operation behind a rule, on operands in the order in which they were pushed. -/
inductive Performs (ev : Evaluator) : BuiltinRule → List Ty → AlgebraM Ty → Prop
  | application (a b : Monotype) : Performs ev .application [.mono a, .mono b]
      (do return .mono (← Algebra.applyTypes ev a b))
  | abstraction (a : Monotype) : Performs ev .abstraction [.mono a]
      (do return .mono (← Algebra.abstractType a))
  | construction (a b : Monotype) : Performs ev .construction [.mono a, .mono b]
      (return .mono (.pair a b))
  | headSeparation (a : Monotype) : Performs ev .headSeparation [.mono a]
      (do return .mono (← Algebra.head ev a))
  | tailSeparation (a : Monotype) : Performs ev .tailSeparation [.mono a]
      (do return .mono (← Algebra.tail ev a))
  | disjunction (a : Monotype) : Performs ev .disjunction [.mono a]
      (do return .mono (← Algebra.disjoin a))
  | expansion (a b : Monotype) : Performs ev .expansion [.mono a, .mono b]
      (return .mono (.union a b))
  | realization (a b c : Monotype) : Performs ev .realization [.mono a, .mono b, .mono c]
      (do return .mono (← Algebra.realize ev a b c))
  | contextualization (p q : Ty) : Performs ev .contextualization [p, q]
      (return Algebra.contextualize p.toPolytype q.toPolytype)
  | instantiation (p : Polytype) (m : Monotype) : Performs ev .instantiation [.poly p, .mono m]
      (return p.instantiate m)
  | generalization (y : Ty) : Performs ev .generalization [y] (return .poly y.generalize)

variable {ev : Evaluator} {r : BuiltinRule} {operands : List Ty} {x : AlgebraM Ty}

theorem Performs.length_eq (h : Performs ev r operands x) : operands.length = r.arity := by
  cases h <;> rfl

/-- Operands determine the operation. -/
theorem Performs.unique {y : AlgebraM Ty} (h : Performs ev r operands x)
    (h' : Performs ev r operands y) : x = y := by
  cases h <;> cases h' <;> rfl

end BuiltinRule

/-! ## What rules take -/

/-- How a rule ends that does not find operands: with an error about them and the context as it was, or,
where a type cannot be written for the error, with a fault. Operands that had been popped by then are
not put back. -/
inductive TurnsDown (n : Nat) (c : TypeContext) : Refusal → TypeContext → Prop
  | error {e : AlgebraError} : e.isOperandError = true → TurnsDown n c (.error e) c
  | fault {y : Ty} {f : Fault} {kept : List Ty} : y ∈ c.stack.take n → y.render = .error f →
      kept <:+ c.stack → TurnsDown n c (.fault f) { c with stack := kept }

theorem TurnsDown.of_unfit {n : Nat} {c : TypeContext} {refusal : Refusal}
    (h : refusal.Unfit (c.stack.take n)) : TurnsDown n c refusal c := by
  cases h with
  | error he => exact .error he
  | fault hy hf => exact .fault hy hf (List.suffix_refl _)

/-- The rule takes operands for which there is an operation, given in the order in which they were
pushed, and goes on with it on the rest of the stack. If the stack does not end in such operands, the
rule turns down what it finds. How index terms are evaluated does not matter for this. -/
def Takes (n : Nat) (fit : Evaluator → List Ty → AlgebraM Ty → Prop) (rule : Evaluator → Rule) : Prop :=
  ∀ c : TypeContext,
    (∃ (operands rest : List Ty) (x : Evaluator → AlgebraM Ty), c.stack = operands.reverse ++ rest ∧
      (∀ ev, fit ev operands (x ev)) ∧ ∀ ev, rule ev c = x ev { c with stack := rest }) ∨
    (∀ ev operands rest x, c.stack = operands.reverse ++ rest → ¬fit ev operands x) ∧
      ∃ refusal d, TurnsDown n c refusal d ∧ ∀ ev, rule ev c = .error refusal d

namespace Takes

variable {fit : Evaluator → List Ty → AlgebraM Ty → Prop}

/-- A rule that pops several types of a sort and goes on with a computation on them. -/
theorem popMany {α : Type} {want : Ty → Except Refusal α} {view : α → Ty}
    (hwant : Sorts want view) {n : Nat} {g : Evaluator → List α → AlgebraM Ty}
    (hfit : ∀ ev (as : List α), as.length = n → fit ev (as.map view) (g ev as.reverse))
    (hshape : ∀ ev operands x, fit ev operands x →
      ∃ as : List α, as.length = n ∧ operands = as.map view) :
    Takes n fit fun ev => Stack.popMany want n >>= g ev := by
  intro c
  rcases Stack.popMany_cases hwant n c with
    ⟨as, rest, hstack, hlength, hrun⟩ | ⟨hmissing, refusal, hunfit, hrun⟩
  · exact .inl ⟨as.map view, rest, fun ev => g ev as.reverse, hstack, fun ev => hfit ev as hlength,
      fun ev => Stateful.bind_of_ok hrun⟩
  · refine .inr ⟨fun ev operands rest x hstack hx => ?_, refusal, c, .of_unfit hunfit, fun ev =>
      Stateful.bind_of_error hrun⟩
    obtain ⟨as, hlength, rfl⟩ := hshape ev operands x hx
    exact hmissing as rest hstack hlength

/-- A rule that pops one type of a sort and goes on with a computation on it. -/
theorem popOne {α : Type} {want : Ty → Except Refusal α} {view : α → Ty}
    (hwant : Sorts want view) {g : Evaluator → α → AlgebraM Ty}
    (hfit : ∀ ev a, fit ev [view a] (g ev a))
    (hshape : ∀ ev operands x, fit ev operands x → ∃ a, operands = [view a]) :
    Takes 1 fit fun ev => Stack.popOne want >>= g ev := by
  intro c
  rcases Stack.popOne_cases hwant c with ⟨a, rest, hstack, hrun⟩ | ⟨hmissing, refusal, hunfit, hrun⟩
  · exact .inl ⟨[view a], rest, fun ev => g ev a, hstack, fun ev => hfit ev a, fun ev =>
      Stateful.bind_of_ok hrun⟩
  · refine .inr ⟨fun ev operands rest x hstack hx => ?_, refusal, c, .of_unfit hunfit, fun ev =>
      Stateful.bind_of_error hrun⟩
    obtain ⟨a, rfl⟩ := hshape ev operands x hx
    exact hmissing a rest hstack

theorem binary {f : Evaluator → Monotype → Monotype → AlgebraM Monotype}
    (hfit : ∀ ev a b, fit ev [.mono a, .mono b] (do return .mono (← f ev a b)))
    (hshape : ∀ ev operands x, fit ev operands x → ∃ a b, operands = [.mono a, .mono b]) :
    Takes 2 fit fun ev => Rule.binary (f ev) := by
  refine popMany Stack.sorts_monotype (fun ev ms hlength => ?_) fun ev operands x hx => ?_
  · obtain ⟨a, b, rfl⟩ := List.length_eq_two.mp hlength
    exact hfit ev a b
  · obtain ⟨a, b, rfl⟩ := hshape ev operands x hx
    exact ⟨[a, b], rfl, rfl⟩

theorem unary {f : Evaluator → Monotype → AlgebraM Monotype}
    (hfit : ∀ ev a, fit ev [.mono a] (do return .mono (← f ev a)))
    (hshape : ∀ ev operands x, fit ev operands x → ∃ a, operands = [.mono a]) :
    Takes 1 fit fun ev => Rule.unary (f ev) := popOne Stack.sorts_monotype hfit hshape

end Takes

namespace BuiltinRule

end BuiltinRule

end IndexedLambda
