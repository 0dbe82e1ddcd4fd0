import IndexedLambda.Evaluation.Equality
import Std.Data.ExtTreeMap
/-!
# The name table

A name table mints fresh term variables and holds named definitions, each of which may be declared
the inverse of another. A definition is never replaced, and an inverse is declared at most once and
for both sides together.
-/

namespace IndexedLambda

/-- Why the name table refused an entry. -/
inductive NameTable.Error where
  | alreadyDefined (name : String)
  | notDefined (name : String)
  | inverseAlreadyDeclared (name : String)
  deriving DecidableEq

def NameTable.Error.message : NameTable.Error → String
  | alreadyDefined name => s!"`{name}` is already defined"
  | notDefined name => s!"`{name}` is not defined"
  | inverseAlreadyDeclared name => s!"`{name}` already has a declared inverse"

/-- Fresh term variables, named definitions and their inverses. -/
structure NameTable where
  nextVar : Nat
  definitions : Std.ExtTreeMap String Term
  inverses : Std.ExtTreeMap String String

namespace NameTable

/-- An empty table whose first fresh variable has the given number. -/
def startingAt (offset : Nat) : NameTable := ⟨offset, ∅, ∅⟩

/-- A fresh unassigned variable `$e<n>`. -/
def freshVar : EStateM Fault NameTable Variable := do
  let table ← get
  match nextCount table.nextVar with
  | .ok next =>
    set { table with nextVar := next }
    return .unassigned s!"$e{table.nextVar}"
  | .error fault => throw fault

def lookup (table : NameTable) (name : String) : Option Term := table.definitions[name]?

/-- Defines a name that is not defined yet. -/
def define (name : String) (t : Term) : EStateM Error NameTable Unit := do
  let table ← get
  if name ∈ table.definitions then throw (.alreadyDefined name)
  else set { table with definitions := table.definitions.insert name t }

/-- Declares two defined names inverses of each other. Neither may have an inverse already. Both
names are looked up before either is checked for an inverse. -/
def declareInverse (f g : String) : EStateM Error NameTable Unit := do
  let table ← get
  if f ∉ table.definitions then throw (.notDefined f)
  else if g ∉ table.definitions then throw (.notDefined g)
  else if f ∈ table.inverses then throw (.inverseAlreadyDeclared f)
  else if g ∈ table.inverses then throw (.inverseAlreadyDeclared g)
  else set { table with inverses := (table.inverses.insert f g).insert g f }

/-- The definition of the inverse of a constant, if one was declared. -/
def inverse (table : NameTable) : Term → Option Term
  | .const c => table.inverses[c]?.bind table.lookup
  | _ => none

end NameTable

end IndexedLambda
