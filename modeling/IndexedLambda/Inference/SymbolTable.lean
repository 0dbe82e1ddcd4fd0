import IndexedLambda.Judgment
import Std.Data.ExtTreeMap
/-!
# The symbol table

Which judgment a name has. A name may be bound several times; the last binding is visible and
shadows the others, and removing it reveals the one before. A name with no binding left has no entry.
Removals can also be queued and run later, the most recent one first.
-/

namespace IndexedLambda

structure SymbolTable where
  /-- The judgments of every bound name, the visible one first. -/
  symbols : Std.ExtTreeMap String (List Judgment)
  /-- Names whose removal is queued, the most recent one first. -/
  removals : List String

namespace SymbolTable

def empty : SymbolTable := ⟨∅, []⟩

/-- The judgments of a name, the visible one first. -/
def bindings (table : SymbolTable) (name : String) : List Judgment :=
  (table.symbols[name]?).getD []

/-- Binds a name to a type. -/
def add (table : SymbolTable) (name : String) (type : Ty) : SymbolTable :=
  { table with
    symbols := table.symbols.insert name (⟨.const name, type⟩ :: table.bindings name) }

/-- The visible judgment of a name. -/
def get? (table : SymbolTable) (name : String) : Option Judgment := (table.bindings name).head?

def contains (table : SymbolTable) (name : String) : Bool := table.symbols.contains name

/-- How many judgments a bound name has, shadowed ones included. -/
def depth? (table : SymbolTable) (name : String) : Option Nat :=
  (table.symbols[name]?).map (·.length)

/-- Drops the visible binding of a name. -/
def remove (table : SymbolTable) (name : String) : SymbolTable :=
  match table.bindings name with
  | _ :: next :: rest => { table with symbols := table.symbols.insert name (next :: rest) }
  | _ => { table with symbols := table.symbols.erase name }

@[simp] theorem bindings_empty (name : String) : empty.bindings name = [] := by
  simp [empty, bindings]

/-- A new binding is visible, and other names keep theirs. -/
theorem bindings_add (table : SymbolTable) (name other : String) (type : Ty) :
    (table.add name type).bindings other =
      if name = other then ⟨.const name, type⟩ :: table.bindings name
      else table.bindings other := by
  by_cases h : name = other <;> simp [add, bindings, Std.ExtTreeMap.getElem?_insert, h]

/-- A removal reveals what the visible binding shadowed, and other names keep theirs. -/
theorem bindings_remove (table : SymbolTable) (name other : String) :
    (table.remove name).bindings other =
      if name = other then (table.bindings name).tail else table.bindings other := by
  unfold remove
  split
  · rename_i first next rest h
    by_cases e : name = other <;> simp [bindings, Std.ExtTreeMap.getElem?_insert, e]
    rw [← e, show (table.symbols[name]?).getD [] = _ from h]
    rfl
  · rename_i h
    by_cases e : name = other <;> simp [bindings, Std.ExtTreeMap.getElem?_erase, e]
    rw [← e]
    change (table.bindings name).tail = []
    rcases hb : table.bindings name with _ | ⟨first, _ | ⟨next, rest⟩⟩
    · rfl
    · rfl
    · exact absurd hb (h first next rest)

/-- Drops the visible binding of a name, and says whether there was one. -/
def discard (table : SymbolTable) (name : String) : Bool × SymbolTable :=
  (table.contains name, table.remove name)

/-- Queues a removal. -/
def removeLater (table : SymbolTable) (name : String) : SymbolTable :=
  { table with removals := name :: table.removals }

/-- Runs the queued removals, the most recent one first. -/
def flush (table : SymbolTable) : SymbolTable :=
  { table.removals.foldl remove table with removals := [] }

/-- Number of bound names. -/
def size (table : SymbolTable) : Nat := table.symbols.size

/-- Every judgment, names in order and the oldest binding of a name first. -/
def judgments (table : SymbolTable) : List Judgment :=
  table.symbols.toList.flatMap fun entry => entry.2.reverse

end SymbolTable

end IndexedLambda
