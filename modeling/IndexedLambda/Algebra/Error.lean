import IndexedLambda.Fault
import IndexedLambda.Status
/-!
# Errors of the type algebra
-/

namespace IndexedLambda

/-- Why an operation of the type algebra failed. -/
inductive AlgebraError where
  | unknownRule (id : Nat)
  | unknownRuleName (name : String)
  | ruleAlreadyRegistered (name : String)
  | stackUnderflow (needed available : Nat)
  /-- A monotype was needed; the type found instead is written. -/
  | expectedMonotype (found : String)
  /-- A polytype was needed; the type found instead is written. -/
  | expectedPolytype (found : String)
  /-- Two types could not be unified; both are written in resolved form. -/
  | unification (status : Status) (left right : String)
  deriving DecidableEq

namespace AlgebraError

def message : AlgebraError → String
  | unknownRule id => s!"no type-algebra rule has id {id}"
  | unknownRuleName name => s!"no type-algebra rule is named `{name}`"
  | ruleAlreadyRegistered name => s!"a type-algebra rule named `{name}` is already registered"
  | stackUnderflow needed available =>
    s!"rule needs {needed} types on the stack, found {available}"
  | expectedMonotype found => s!"expected a monotype on the stack, found `{found}`"
  | expectedPolytype found => s!"expected a polytype on the stack, found `{found}`"
  | unification status left right => s!"cannot unify `{left}` with `{right}` ({status.name})"

def category : AlgebraError → Category
  | unknownRule _ | unknownRuleName _ | ruleAlreadyRegistered _ => .ruleRegistry
  | stackUnderflow _ _ | expectedMonotype _ | expectedPolytype _ => .stackMismatch
  | unification status _ _ => status.category

/-- The error as a diagnostic, with the usual fix of its category. -/
def diagnostic (e : AlgebraError) : Diagnostic :=
  { Diagnostic.error e.category e.message with help := some e.category.fix }

end AlgebraError

/-- How an operation of the type algebra ends without a result: with an error, which leaves the
context usable, or with a fault. -/
inductive Refusal where
  | error (e : AlgebraError)
  | fault (f : Fault)
  deriving DecidableEq

end IndexedLambda
