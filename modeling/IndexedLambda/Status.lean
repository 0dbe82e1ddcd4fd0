import IndexedLambda.Diagnostic
/-!
# Statuses

How a unification or an inference rule ended. A failure ends that one application only; the state
it worked on stays usable.
-/

namespace IndexedLambda

inductive Status where
  | ok
  /-- Constants at one position have different names. -/
  | constantMismatch
  /-- One constant has different numbers of parameters or of indices. -/
  | paramLengthMismatch
  /-- A variable would be bound to a type that contains it. -/
  | occursCheckFailed
  /-- A name has no judgment. -/
  | nameNotInContext
  /-- Two index terms are neither variables nor equal. -/
  | kindMismatch
  deriving DecidableEq, Inhabited

namespace Status

def all : List Status :=
  [ok, constantMismatch, paramLengthMismatch, occursCheckFailed, nameNotInContext, kindMismatch]

def isOk (s : Status) : Bool := s == ok

/-- The category of a failure. -/
def category? : Status → Option Category
  | ok => none
  | constantMismatch => some .constantMismatch
  | paramLengthMismatch => some .paramLengthMismatch
  | occursCheckFailed => some .occursCheck
  | nameNotInContext => some .undefinedName
  | kindMismatch => some .kindMismatch

/-- The category of a failure; a status that is none counts as a mismatch of constants. -/
def category (s : Status) : Category := s.category?.getD .constantMismatch

def name : Status → String
  | ok => "Ok"
  | constantMismatch => "ConstantMismatch"
  | paramLengthMismatch => "ParamLengthMismatch"
  | occursCheckFailed => "OccursCheckFailed"
  | nameNotInContext => "NameNotInContext"
  | kindMismatch => "KindMismatch"

/-- The status of the given name. -/
def ofName? (name : String) : Option Status := all.find? (·.name = name)

/-- The name in lower case, with underscores between words. -/
def code : Status → String
  | ok => "ok"
  | constantMismatch => "constant_mismatch"
  | paramLengthMismatch => "param_length_mismatch"
  | occursCheckFailed => "occurs_check_failed"
  | nameNotInContext => "name_not_in_context"
  | kindMismatch => "kind_mismatch"

/-- What went wrong, in a few words. -/
def summary : Status → String
  | ok => "no error"
  | constantMismatch => "type constants do not match"
  | paramLengthMismatch => "type parameter counts do not match"
  | occursCheckFailed => "a type variable occurs in its own binding"
  | nameNotInContext => "a name is not in the context"
  | kindMismatch => "dependent indices do not match"

end Status

end IndexedLambda
