import IndexedLambda.Term.Basic
/-!
# Native actions

What a native instruction does is a value of type `Action`: an answer, a failure, or a term to be
forced together with what to do once its forced form is known. An action therefore never calls the
evaluator; the evaluator runs the action, and it alone decides how far a term is forced. An
`InstructionSet` gives the action of every native head on the arguments that were received. A head has
an action of its own, so heads of one name and arity need not do the same.
-/

namespace IndexedLambda

/-- A native computation as a tree of requests. -/
inductive Action where
  | answer (result : Term)
  /-- A failure with a text, or one that has nothing to say. -/
  | fail (text : Option String)
  /-- Asks for the forced form of a term. -/
  | force (subject : Term) (next : Term → Action)

/-- The actions of the native heads. -/
abbrev InstructionSet := InstructionHead → List Term → Action

namespace Action

/-- Runs an action, given how a term is forced. A fault during forcing ends the run. -/
def run (force : Term → Except Fault Term) : Action → Except Fault Term
  | .answer result => .ok result
  | .fail text => .error (.raised text)
  | .force subject next => do (next (← force subject)).run force

/-- Asks for the forced argument with the given index, counted from zero, and goes on with it and
with the arguments in which it has taken the place of the unforced one. -/
def argument (args : List Term) (index : Nat) (next : Term → List Term → Action) : Action :=
  match args[index]? with
  | some t => .force t fun forced => next forced (args.set index forced)
  | none =>
    .fail (some s!"instruction argument {index} requested but only {args.length} received")

/-- `argument`, with positions that count from one. -/
def argumentAt (args : List Term) (position : Nat) (next : Term → List Term → Action) : Action :=
  match position with
  | 0 => .fail (some "argument positions start at 1")
  | index + 1 => argument args index next

end Action

/-- Separates what the caller of an instruction sees, a result or the text of a fault, from an
evaluation that was stopped. -/
def outcome : Except Fault Term → Except Fault (Except String Term)
  | .ok t => .ok (.ok t)
  | .error .outOfFuel => .error .outOfFuel
  | .error f => .ok (.error f.message)

/-- The result of a call, or the constant named by the text of its fault. -/
def recover (result : Except Fault Term) : Except Fault Term := do
  match ← outcome result with
  | .ok t => return t
  | .error text => return .const text

end IndexedLambda
