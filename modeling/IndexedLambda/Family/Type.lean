import IndexedLambda.Types.Monotype
/-!
# Families of types

Types that grow with a number, for measuring unification.
-/

namespace IndexedLambda.Family

/-- A function type of `n` arrows, nested to the right, that ends in `last`. Parameter number `i` is
the variable `a<i>`, or `Int` throughout. -/
def arrowChain (n : Nat) (vars : Bool) (last : Monotype) : Monotype :=
  (List.range n).foldr (fun i chain => .arrow (if vars then .named s!"a{i}" else .plain "Int") chain)
    last

/-- `Pair` nested `n` deep on the left, over the variables `<stem>0 .. <stem>n`. -/
def pairSpine (n : Nat) (stem : String) : Monotype :=
  (List.range n).foldl (fun spine i => .app (.plain "Pair") [spine, .named s!"{stem}{i + 1}"])
    (.named s!"{stem}0")

end IndexedLambda.Family
