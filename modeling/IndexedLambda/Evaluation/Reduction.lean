import IndexedLambda.Evaluation.Action
import IndexedLambda.Term.Substitution
/-!
# Reduction

`Term.force` reduces a term just far enough to expose its head. Only the operator spine of an
application is ever forced, so an operand that is not used is never evaluated.

A beta step hands back a term and a flag that says whether a redex has come up on its spine.
`Term.settle` steps with `Term.advance` while the flag is set. Instructions collect arguments and run
once they have all of them; a fault in a run becomes a constant with the text of the fault.

Reduction may go on for ever, so every function here has a bound on the depth of its recursion. A
bound that is reached gives `Fault.outOfFuel` and nothing else; any other answer is the answer for
every larger bound as well.
-/

namespace IndexedLambda.Term

variable (natives : InstructionSet)

mutual
/-- Reduces until the head is exposed. Local definitions have all their parts forced. -/
def force : Nat → Term → Except Fault Term
  | 0, _ => .error .outOfFuel
  | n + 1, .app l r => do
    let operator ← force n l
    if operator.isApplicable then feed n operator r else return .app operator r
  | n + 1, .instr head args =>
    if head.isReady args then call n head args else .ok (.instr head args)
  | n + 1, .define form x a b => do return .define form x (← force n a) (← force n b)
  | n + 1, .recur defs b => do
    let forced ← defs.mapM fun d => do return (d.1, ← force n d.2)
    return .recur forced (← force n b)
  | _ + 1, t => .ok t
/-- Applies an applicable term; any other becomes the operator of an application. -/
def feed : Nat → Term → Term → Except Fault Term
  | 0, _, _ => .error .outOfFuel
  | n + 1, .abs binders body, arg => apply n binders body arg
  | n + 1, .instr head args, arg => feedInstr n head args arg
  | _ + 1, t, arg => .ok (.app t arg)
/-- Hands one more argument to an instruction and runs it when that was the last one. An instruction
that is ready already runs first, and its result is applied to the argument. -/
def feedInstr : Nat → InstructionHead → List Term → Term → Except Fault Term
  | 0, _, _, _ => .error .outOfFuel
  | n + 1, head, args, arg =>
    if head.isReady args then do force n (.app (← call n head args) arg)
    else if args.length < head.arity then
      if head.isReady (args ++ [arg]) then call n head (args ++ [arg])
      else .ok (.instr head (args ++ [arg]))
    else .error (.tooManyArguments head.name head.arity (args.length + 1))
/-- Runs the action of a native head. -/
def call : Nat → InstructionHead → List Term → Except Fault Term
  | 0, _, _ => .error .outOfFuel
  | n + 1, head, args => recover ((natives head args).run (force n))
/-- Applies an abstraction to an argument that comes from outside, so that its unassigned
occurrences are free, and reduces the body until no redex is flagged. -/
def apply : Nat → List Variable → Term → Term → Except Fault Term
  | 0, _, _, _ => .error .outOfFuel
  | _ + 1, [], _, _ => .error .noBinders
  | n + 1, v :: rest, body, arg => do
    let inserted ← body.replace v (← arg.assignFree.shift (.up (rest.length + 1)))
    let result ← inserted.shift ⟨rest.length + 1, -1⟩
    return wrap rest (← settle n result (exposes body inserted))
/-- Steps while the flag is set. -/
def settle : Nat → Term → Bool → Except Fault Term
  | 0, _, _ => .error .outOfFuel
  | _ + 1, t, false => .ok t
  | n + 1, t, true => do
    let (t', more) ← advance n t
    settle n t' more
/-- One step on the operator spine, with the flag that asks for another one. -/
def advance : Nat → Term → Except Fault (Term × Bool)
  | 0, _ => .error .outOfFuel
  | n + 1, .app l r => do
    let (operator, more) ← advance n l
    if more then return (.app operator r, true)
    match operator with
    | .abs binders body => contract binders body r
    | .instr head args => return (← feedInstr n head args r, false)
    | _ => return (.app operator r, false)
  | n + 1, .instr head args =>
    if head.isReady args then do return (← call n head args, false)
    else .ok (.instr head args, false)
  | _ + 1, t => .ok (t, false)
end

/-- Forces again and again until the term is strictly the same. -/
def stabilize : Nat → Term → Except Fault Term
  | 0, _ => .error .outOfFuel
  | n + 1, t => do
    let next ← t.force natives n
    if next.StrictEq t then return next else stabilize n next

/-- The head normal form. -/
def headNormal (fuel : Nat) (t : Term) : Except Fault Term := do
  stabilize natives fuel (← t.force natives fuel)

/-- Applies an abstraction to a placeholder until something else than an abstraction comes out. -/
def saturate (placeholder : Variable) : Nat → List Variable → Term → Except Fault Term
  | 0, _, _ => .error .outOfFuel
  | n + 1, binders, body => do
    match ← apply natives n binders body (.var placeholder) with
    | .abs binders' body' => saturate placeholder n binders' body'
    | t => return t

/-- Runs an instruction on the arguments it has, however many, and tells a result from the text of a
fault. -/
def attempt (fuel : Nat) (head : InstructionHead) (args : List Term) :
    Except Fault (Except String Term) :=
  outcome (if head.native then (natives head args).run (force natives fuel)
    else .error (.noAction head.name))

/-- Runs an instruction for a caller with or without a handler for faults, and says what was handed to
the handler. A fault that is not handled leaves the constant named by its text. -/
def tryCall (fuel : Nat) (handled : Bool) (head : InstructionHead) (args : List Term) :
    Except Fault (Except (Option Term) Term × List String) := do
  match ← attempt natives fuel head args with
  | .ok t => return (.ok t, [])
  | .error text =>
    if handled then return (.error none, [text]) else return (.error (some (.const text)), [])

/-- The forced first element of a list, if it has one. -/
def headElement (fuel : Nat) : List Term → Except Fault (Option Term)
  | [] => .ok none
  | e :: _ => do return some (← force natives fuel e)

end IndexedLambda.Term
