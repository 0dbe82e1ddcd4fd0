import IndexedLambda.Types.Monotype
import Std.Data.ExtTreeMap
/-!
# Class maps

Unification puts variables into classes. A class map sends the key of a variable to what the
variable was bound to, and `ClassMap.find` follows such bindings to a value that is not bound: the
representative of the class. Only values with a key can be bound, so any other value is its own
representative.

A binding that has been followed is set aside for the rest of the walk. The walk therefore ends on
every map, after at most as many steps as there are bindings. When no binding leads back to itself
this makes no difference to the result.

Type variables and index variables are classified by the same map type, each with their own keys.
-/

namespace IndexedLambda

/-- Values of which some have a key under which they can be bound. -/
class Keyed (α : Type) where
  key? : α → Option String

instance : Keyed Monotype := ⟨fun m => m.asVariable.map (·.key)⟩

/-- `name[depth]`, which tells all index variables apart. -/
def Variable.key (v : Variable) : String := s!"{v.name}[{v.depth}]"

instance : Keyed Term where
  key?
    | .var v => some v.key
    | _ => none

/-- Bindings of keys to values. -/
structure ClassMap (α : Type) where
  bindings : Std.ExtTreeMap String α

namespace ClassMap

variable {α : Type}

def empty : ClassMap α := ⟨∅⟩

/-- How many keys are bound. -/
def size (c : ClassMap α) : Nat := c.bindings.size

def get? (c : ClassMap α) (key : String) : Option α := c.bindings[key]?

/-- Binds a key, in place of any binding it had. -/
def bind (c : ClassMap α) (key : String) (a : α) : ClassMap α := ⟨c.bindings.insert key a⟩

/-- The map without the binding of a key. -/
def erase (c : ClassMap α) (key : String) : ClassMap α := ⟨c.bindings.erase key⟩

@[simp] theorem get?_empty (key : String) : (empty : ClassMap α).get? key = none := by
  simp [empty, get?]

/-- A binding is seen under its own key and under no other. -/
theorem get?_bind (c : ClassMap α) (key key' : String) (a : α) :
    (c.bind key a).get? key' = if key = key' then some a else c.get? key' := by
  simp [bind, get?, Std.ExtTreeMap.getElem?_insert]

/-- Only the erased binding is gone. -/
theorem get?_erase (c : ClassMap α) (key key' : String) :
    (c.erase key).get? key' = if key = key' then none else c.get? key' := by
  simp [erase, get?, Std.ExtTreeMap.getElem?_erase]

/-- What a value is bound to. -/
def next? [Keyed α] (c : ClassMap α) (a : α) : Option α := (Keyed.key? a).bind c.get?

/-- Follows at most `n` bindings. -/
def findWithin [Keyed α] : Nat → ClassMap α → α → α
  | 0, _, a => a
  | n + 1, c, a =>
    match Keyed.key? a with
    | none => a
    | some key =>
      match c.get? key with
      | none => a
      | some b => findWithin n (c.erase key) b

/-- The representative of a value. -/
def find [Keyed α] (c : ClassMap α) (a : α) : α := findWithin c.size c a

end ClassMap

/-! ## Resolving a type -/

namespace ClassMap

/-- Replaces every bound variable, through at most `n` bindings on every way down, and every index
term by its representative. -/
def resolveWithin (kinds : ClassMap Term) : Nat → ClassMap Monotype → Monotype → Monotype
  | 0, _, m => m.mapIndex kinds.find
  | n + 1, c, m =>
    (m.mapIndex kinds.find).subst fun v =>
      match c.get? v.key with
      | none => .var v
      | some rep => resolveWithin kinds n (c.erase v.key) rep

/-- The type with every variable replaced by its representative, all the way down. -/
def resolve (c : ClassMap Monotype) (kinds : ClassMap Term) (m : Monotype) : Monotype :=
  resolveWithin kinds c.size c m

end ClassMap

end IndexedLambda
