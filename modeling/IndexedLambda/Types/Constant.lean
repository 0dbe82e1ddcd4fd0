import IndexedLambda.Fault
import IndexedLambda.Text.Bytes
/-!
# Type variables and type constants

A type variable is a name together with the number of the session that made it; both count for
identity. A type constant carries how it is written when it is applied.
-/

namespace IndexedLambda

/-- A type variable, tagged with the session that made it. -/
structure TypeVariable where
  name : String
  context : Int
  deriving DecidableEq

namespace TypeVariable

/-- The name of the binder that binds nothing. -/
def wildcardName : String := "_"

/-- The session number of variables that no session owns. -/
def noContext : Int := -1

/-- The `_` binder. Instantiating it substitutes nothing. -/
def wildcard : TypeVariable := ⟨wildcardName, 0⟩

def isWildcard (v : TypeVariable) : Bool := v.name == wildcardName

/-- `name#context`, which tells all variables apart. -/
def key (v : TypeVariable) : String := s!"{v.name}#{v.context}"

end TypeVariable

/-- How a constant is written when it is applied. -/
inductive Style where
  /-- In front of its parameters: `(Array a)`. -/
  | plain
  /-- After its first parameter: `(a -> b)`. By itself it is written `(->)`. -/
  | operator
  /-- Around its parameters, with the name cut after so many bytes: `[a]`. -/
  | enclosing (splitAt : Nat)
  deriving DecidableEq

structure TypeConstant where
  name : String
  style : Style
  deriving DecidableEq

namespace TypeConstant

def plain (name : String) : TypeConstant := ⟨name, .plain⟩

def operator (name : String) : TypeConstant := ⟨name, .operator⟩

/-- Whether the name can be cut as the style says. Only an enclosing constant has its name cut. -/
def isWellSplit (c : TypeConstant) : Bool :=
  match c.style with
  | .enclosing splitAt => (Text.splitAtByte splitAt c.name.toList).isSome
  | .plain | .operator => true

/-- A constant that encloses its parameters. The cut has to fall between characters. -/
def enclosing (name : String) (splitAt : Nat) : Except Fault TypeConstant :=
  let c : TypeConstant := ⟨name, .enclosing splitAt⟩
  if c.isWellSplit then .ok c else .error (.invalidSplit name splitAt)

/-- The function constructor. -/
def arrow : TypeConstant := operator "->"

/-- The pair constructor. -/
def pair : TypeConstant := operator "&"

/-- The union constructor. -/
def union : TypeConstant := operator "|"

/-- The list constructor. -/
def list : TypeConstant := ⟨"[]", .enclosing 1⟩

end TypeConstant

end IndexedLambda
