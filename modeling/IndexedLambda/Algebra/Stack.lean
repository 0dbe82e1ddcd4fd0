import IndexedLambda.Algebra.Error
import IndexedLambda.Types.Render
import IndexedLambda.Unification.Context
/-!
# The stack of the type algebra

Rules pop their operands from the stack of the context. Popping checks everything first: unless all
the types asked for are there and of the right sort, nothing is popped. Of several types of the wrong
sort the deepest one is named.
-/

namespace IndexedLambda

/-- Operations of the type algebra. -/
abbrev AlgebraM := EStateM Refusal TypeContext

/-- An operation on the context as an operation of the algebra. -/
def ContextM.toAlgebra {α : Type} (x : ContextM α) : AlgebraM α := fun c =>
  match x c with
  | .ok a c => .ok a c
  | .error f c => .error (.fault f) c

instance : MonadLift ContextM AlgebraM := ⟨ContextM.toAlgebra⟩

namespace Stack

/-- Takes `n` types off a stack, top first, if `want` gives a value for each of them. -/
def takeTop {α : Type} (want : Ty → Except Refusal α) (n : Nat) (stack : List Ty) :
    Except Refusal (List α × List Ty) :=
  if stack.length < n then .error (.error (.stackUnderflow n stack.length))
  else do
    let fromBelow ← (stack.take n).reverse.mapM want
    return (fromBelow.reverse, stack.drop n)

/-- Any type at all. -/
def wantType (y : Ty) : Except Refusal Ty := .ok y

/-- An error that shows the type found, which has to be written for it. -/
def refuse (error : String → AlgebraError) (found : Ty) : Refusal :=
  match found.render with
  | .ok written => .error (error written)
  | .error f => .fault f

def wantMonotype : Ty → Except Refusal Monotype
  | .bare (.mono m) => .ok m
  | y => .error (refuse .expectedMonotype y)

def wantPolytype : Ty → Except Refusal Polytype
  | .poly p => .ok p
  | y => .error (refuse .expectedPolytype y)

/-- Pops `n` types, top first. -/
def popMany {α : Type} (want : Ty → Except Refusal α) (n : Nat) : AlgebraM (List α) := do
  let c ← get
  match takeTop want n c.stack with
  | .ok (tops, rest) =>
    set { c with stack := rest }
    return tops
  | .error refusal => throw refusal

/-- Pops one type. -/
def popOne {α : Type} (want : Ty → Except Refusal α) : AlgebraM α := do
  match ← popMany want 1 with
  | a :: _ => return a
  | [] => throw (.error (.stackUnderflow 1 0))

def push (y : Ty) : AlgebraM Unit := modify fun c => { c with stack := y :: c.stack }

def pop : AlgebraM Ty := popOne wantType

def popMonotype : AlgebraM Monotype := popOne wantMonotype

def popPolytype : AlgebraM Polytype := popOne wantPolytype

def popMonotypes (n : Nat) : AlgebraM (List Monotype) := popMany wantMonotype n

/-- Pops `n` types as polytypes, without binders unless they have some. -/
def popAsPolytypes (n : Nat) : AlgebraM (List Polytype) := do
  return (← popMany wantType n).map Ty.toPolytype

end Stack

end IndexedLambda
