import IndexedLambda.Algebra.Rule
/-!
# Further rules

Rules that can be registered next to the built-in ones.
-/

namespace IndexedLambda.Rule

/-- Pops a monotype and gives the type of lists of it. -/
def listing : Rule := unary fun m => return .list m

/-- Gives the type on top, and leaves it there. -/
def duplicate : Rule := do
  let y ← Stack.pop
  Stack.push y
  return y

/-- Pops a type and fails. -/
def refuse : Rule := do
  let _ ← Stack.pop
  throw (.error (.unknownRuleName "refused"))

/-- Runs the abstraction rule twice and gives the result. -/
def twice : Rule := do
  Stack.push (← abstraction)
  Stack.push (← abstraction)
  Stack.pop

/-- The further rules by name. -/
def further : List (String × Rule) :=
  [("listing", listing), ("duplicate", duplicate), ("refuse", refuse), ("twice", twice)]

end IndexedLambda.Rule
