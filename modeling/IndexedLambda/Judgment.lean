import IndexedLambda.Types.Render
/-!
# Judgments

A judgment says that a term has a type.
-/

namespace IndexedLambda

/-- `term: type` -/
structure Judgment where
  term : Term
  type : Ty

namespace Judgment

/-- Judgments are equal when the terms are strictly equal and the types are equal. -/
def beq (i j : Judgment) : Bool := i.term.StrictEq j.term && i.type == j.type

instance : BEq Judgment := ⟨beq⟩

def render (j : Judgment) : Except Fault String := do
  return j.term.display ++ ": " ++ (← j.type.render)

end Judgment

end IndexedLambda
