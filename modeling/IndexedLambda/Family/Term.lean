import IndexedLambda.Term.Combinator
/-!
# Families of terms

Terms that grow with a number and exercise one operation each.
-/

namespace IndexedLambda.Family

/-- `id (id (.. (id c)))` with `n` applications of the identity. -/
def identityTower : Nat → Term
  | 0 => .const "c"
  | n + 1 => .app Combinator.identity.term (identityTower n)

/-- The names `x0 .. x(n-1)`. -/
def binderNames (n : Nat) : List String := (List.range n).map fun i => s!"x{i}"

/-- `n` nested abstractions over one name each. The innermost body applies a free `z` to all of
them, from left to right. -/
def nestedAbstraction (n : Nat) : Except Fault Term :=
  let names := binderNames n
  let body := Term.appMany (.var (.unassigned "z")) (names.map fun x => .var (.unassigned x))
  names.foldrM (fun x t => t.bind [x]) body

end IndexedLambda.Family
