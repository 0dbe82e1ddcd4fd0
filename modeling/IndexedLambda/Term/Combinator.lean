import IndexedLambda.Term.Binding
/-!
# Stock closed terms

The identity, the Church booleans with their connectives, and the fixed-point combinator. Each is
given in bound form, with all depths assigned; `Combinator.unbound` is the form with bare names that
`Term.bind` takes to it.
-/

namespace IndexedLambda

/-- The stock terms. -/
inductive Combinator where
  | identity | constant | churchTrue | churchFalse | disj | conj | neg | branch | fixpoint
  deriving DecidableEq

namespace Combinator

/-- `λ t f . t` -/
def truth : Term := .abs [⟨"t", 2⟩, ⟨"f", 1⟩] (.var ⟨"t", 2⟩)

/-- `λ t f . f` -/
def falsity : Term := .abs [⟨"t", 2⟩, ⟨"f", 1⟩] (.var ⟨"f", 1⟩)

/-- The Church form of a truth value. -/
def ofBool (b : Bool) : Term := if b then truth else falsity

/-- `λ x . f (x x)`, with `f` bound just outside. -/
def half : Term :=
  .abs [⟨"x", 1⟩] (.app (.var ⟨"f", 2⟩) (.app (.var ⟨"x", 1⟩) (.var ⟨"x", 1⟩)))

def term : Combinator → Term
  | identity => .abs [⟨"x", 1⟩] (.var ⟨"x", 1⟩)
  | constant => .abs [⟨"x", 1⟩] (.var ⟨"y", 2⟩)
  | churchTrue => truth
  | churchFalse => falsity
  | disj =>
    .abs [⟨"a", 2⟩, ⟨"b", 1⟩] (.appMany (.var ⟨"a", 2⟩) [truth, .var ⟨"b", 1⟩])
  | conj =>
    .abs [⟨"a", 2⟩, ⟨"b", 1⟩] (.appMany (.var ⟨"a", 2⟩) [.var ⟨"b", 1⟩, falsity])
  | neg => .abs [⟨"a", 1⟩] (.appMany (.var ⟨"a", 1⟩) [falsity, truth])
  | branch =>
    .abs [⟨"c", 3⟩, ⟨"t", 2⟩, ⟨"e", 1⟩]
      (.appMany (.var ⟨"c", 3⟩) [.var ⟨"t", 2⟩, .var ⟨"e", 1⟩])
  | fixpoint => .abs [⟨"f", 1⟩] (.app half half)

def name : Combinator → String
  | identity => "identity"
  | constant => "constant"
  | churchTrue => "true"
  | churchFalse => "false"
  | disj => "or"
  | conj => "and"
  | neg => "not"
  | branch => "if"
  | fixpoint => "y"

def all : List Combinator :=
  [identity, constant, churchTrue, churchFalse, disj, conj, neg, branch, fixpoint]

/-- The stock term of the given name. -/
def ofName? (name : String) : Option Combinator := all.find? (·.name = name)

/-- The names a stock term binds and its body before binding. -/
def unbound : Combinator → List String × Term
  | identity => (["x"], loose "x")
  | constant => (["x"], loose "y")
  | churchTrue => (["t", "f"], loose "t")
  | churchFalse => (["t", "f"], loose "f")
  | disj => (["a", "b"], .appMany (loose "a") [truth, loose "b"])
  | conj => (["a", "b"], .appMany (loose "a") [loose "b", falsity])
  | neg => (["a"], .appMany (loose "a") [falsity, truth])
  | branch => (["c", "t", "e"], .appMany (loose "c") [loose "t", loose "e"])
  | fixpoint => (["f"], .app half half)
where
  loose (x : String) : Term := .var (.unassigned x)

/-- Every stock term is what binding its names makes of its unbound form. -/
theorem bind_unbound (c : Combinator) : c.unbound.2.bind c.unbound.1 = .ok c.term := by
  cases c <;> rfl

end Combinator

end IndexedLambda
