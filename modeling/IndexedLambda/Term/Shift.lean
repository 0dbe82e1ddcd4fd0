import IndexedLambda.Term.Basic
/-!
# Shifting

A term that moves into or out of the scope of binders has the depths of its free occurrences
changed; the depths of its bound ones stay. `Shift` is that change, `Shift.move` its effect on one
depth, and `Term.shift` its effect on a term.

Shifting, capture of names and substitution all walk a term in the same way: they replace variable
occurrences, and they update what they know about the surroundings when they pass an abstraction.
`Term.traverse` is that walk. It goes from left to right and stops at the first fault.
-/

namespace IndexedLambda

/-- "Add `delta` to every depth above `threshold`." -/
structure Shift where
  threshold : Nat
  delta : Int
  deriving DecidableEq

namespace Shift

/-- The shift of a term that is about to sit under `n` more binders. The word `n` is read as a
signed one. -/
def up (n : Nat) : Shift := ⟨0, Int.bmod n wordRange⟩

/-- The same shift seen from inside `n` further binders. -/
def under (s : Shift) (n : Nat) : Except Fault Shift := do
  return { s with threshold := ← addWord s.threshold n }

/-- New depth of one occurrence. A depth up to the threshold is bound and stays, which covers depth
`0` as well. A free occurrence has to stay free: its new depth is a positive word. -/
def move (s : Shift) (depth : Nat) : Except Fault Nat :=
  if depth ≤ s.threshold then .ok depth
  else
    let moved : Int := depth + s.delta
    if 0 < moved ∧ moved < wordRange then .ok moved.toNat
    else .error (.leavesFreeRange depth s.threshold s.delta)

end Shift

def Variable.shift (v : Variable) (s : Shift) : Except Fault Variable := do
  return { v with depth := ← s.move v.depth }

namespace Term

section Traverse

variable {σ : Type} (enter : Nat → σ → Except Fault σ) (visit : σ → Variable → Except Fault Term)

mutual
/-- Replaces every variable occurrence by what `visit` gives for it. The surroundings are a value
`s`, which `enter` updates at an abstraction, given the number of its binders. -/
def traverse (s : σ) : Term → Except Fault Term
  | .var v => visit s v
  | .abs binders body => do
    let inner ← enter binders.length s
    return .abs binders (← traverse inner body)
  | .app l r => do return .app (← traverse s l) (← traverse s r)
  | .const c => .ok (.const c)
  | .list elems => do return .list (← traverseList s elems)
  | .instr head args => do return .instr head (← traverseList s args)
  | .define form x a b => do return .define form x (← traverse s a) (← traverse s b)
  | .recur defs b => do return .recur (← traverseDefs s defs) (← traverse s b)
/-- `traverse` on every element. -/
def traverseList (s : σ) : List Term → Except Fault (List Term)
  | [] => .ok []
  | t :: ts => do return (← traverse s t) :: (← traverseList s ts)
/-- `traverse` on every assignment. -/
def traverseDefs (s : σ) : List (String × Term) → Except Fault (List (String × Term))
  | [] => .ok []
  | (x, t) :: defs => do return (x, ← traverse s t) :: (← traverseDefs s defs)
end

end Traverse

/-- Applies a shift to every occurrence. Inside an abstraction the threshold counts its binders. -/
def shift (t : Term) (s : Shift) : Except Fault Term :=
  t.traverse (fun n s => s.under n) (fun s v => do return .var (← v.shift s)) s

end Term

end IndexedLambda
