import IndexedLambda.Status
import IndexedLambda.Types.Scheme
import IndexedLambda.Unification.ClassMap
/-!
# The type context

A type context owns what unification knows: the classes of type variables, the classes of index
variables, and the numbering of fresh variables. It also holds the stack on which the algebra rules
work, and a record of unification steps if one was asked for.

Operations are state transformers that may end in a fault. What they changed before a fault stays
changed, and so do the bindings that a failed unification made before it failed.
-/

namespace IndexedLambda

/-- What one step of a unification did. -/
inductive UnifyAction where
  /-- Both sides have one representative already. -/
  | identity
  /-- The parameters of one constant are unified in pairs. -/
  | decompose
  /-- A type variable joins the class of the other side. -/
  | bind
  /-- An index variable joins the class of the other side. -/
  | bindIndex
  /-- A variable occurs in what it would be bound to. -/
  | occursCheck
  | error
  deriving DecidableEq

def UnifyAction.name : UnifyAction → String
  | identity => "identity"
  | decompose => "decompose"
  | bind => "bind"
  | bindIndex => "bind_index"
  | occursCheck => "occurs_check"
  | error => "error"

/-- One recorded step of a unification. -/
structure UnifyStep where
  step : Nat
  action : UnifyAction
  left : String
  right : String
  detail : String
  deriving DecidableEq

structure TypeContext where
  /-- The number that fresh variables are tagged with. -/
  number : Int
  nextVar : Nat
  classes : ClassMap Monotype
  kinds : ClassMap Term
  /-- The top of the stack comes first. -/
  stack : List Ty
  tracing : Bool
  trace : Array UnifyStep

/-- Operations on a type context. -/
abbrev ContextM := EStateM Fault TypeContext

namespace TypeContext

/-- An empty context with the given number, whose first fresh variable has the given number. -/
def startingAt (offset : Nat) (number : Int) : TypeContext :=
  ⟨number, offset, .empty, .empty, [], false, #[]⟩

/-- A child context: it knows what the parent knows and goes its own way from there, with a stack
and a record of its own. -/
def inherit (parent : TypeContext) : TypeContext :=
  { parent with stack := [], tracing := false, trace := #[] }

/-- The representative of a type. -/
def find (c : TypeContext) (m : Monotype) : Monotype := c.classes.find m

/-- The representative of an index term. -/
def findKind (c : TypeContext) (t : Term) : Term := c.kinds.find t

/-- The type with every variable replaced by its representative, all the way down. -/
def resolve (c : TypeContext) (m : Monotype) : Monotype := c.classes.resolve c.kinds m

/-- A fresh variable `$<n>`. -/
def freshVar : ContextM TypeVariable := do
  let c ← get
  match nextCount c.nextVar with
  | .ok next =>
    set { c with nextVar := next }
    return ⟨s!"${c.nextVar}", c.number⟩
  | .error fault => throw fault

/-- A fresh variable as a type. -/
def fresh : ContextM Monotype := do return .var (← freshVar)

/-- Binds a type variable. -/
def bindType (v : TypeVariable) (m : Monotype) : ContextM Unit :=
  modify fun c => { c with classes := c.classes.bind v.key m }

/-- Binds an index variable. -/
def bindKind (v : Variable) (t : Term) : ContextM Unit :=
  modify fun c => { c with kinds := c.kinds.bind v.key t }

/-- Adds a step to the record, if one is kept. The two sides are written only then. -/
def record (action : UnifyAction) (left right : Except Fault String) (detail : String) :
    ContextM Unit := do
  let c ← get
  if c.tracing then
    let left ← ofExcept left
    let right ← ofExcept right
    set { c with trace := c.trace.push ⟨c.trace.size + 1, action, left, right, detail⟩ }

def enableTracing : ContextM Unit := modify fun c => { c with tracing := true }

/-- Takes the recorded steps out. -/
def takeTrace : ContextM (Array UnifyStep) :=
  modifyGet fun c => (c.trace, { c with trace := #[] })

end TypeContext

end IndexedLambda
