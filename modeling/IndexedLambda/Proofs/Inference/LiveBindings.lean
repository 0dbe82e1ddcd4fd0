import Mathlib.Data.List.Dedup
import IndexedLambda.Proofs.Inference.Brackets
/-!
# Live bindings

A symbol table keeps a stack of judgments for every bound name. Seen from outside it is a list of live
bindings in the order in which they were added: `Ledger` is that list, with the queue of removals beside
it. An addition goes to the end, and a removal takes out the most recent binding of its name.

The table forgets how bindings of different names are interleaved, so the list cannot be read off from
it, and `SymbolTable.Represents` relates the two name by name. Every call keeps the relation
(`Represents.after`), and what can be asked of a table follows from the list.

Removals touch the entry of their name only, hence they commute (`SymbolTable.remove_comm`), and a flush
depends on the queued names but not on their order.
-/

namespace IndexedLambda

/-! ## Bindings in the order of insertion -/

/-- A binding of a name to a type. -/
structure Ledger.Entry where
  name : String
  type : Ty

/-- The judgment that a binding records. -/
def Ledger.Entry.judgment (b : Entry) : Judgment := ⟨.const b.name, b.type⟩

/-- The live bindings and the names whose removal is queued, both with the oldest first. -/
structure Ledger where
  live : List Ledger.Entry
  queued : List String

/-- A call that changes a symbol table. -/
inductive SymbolTable.Call where
  | add (x : String) (y : Ty)
  | remove (x : String)
  | removeLater (x : String)
  | flush

namespace Ledger

/-- The most recent binding of a name is taken out. -/
def dropLatest (x : String) (live : List Entry) : List Entry :=
  (live.reverse.eraseP (·.name = x)).reverse

/-- The most recent binding of a name. -/
def latest? (x : String) (live : List Entry) : Option Entry := live.reverse.find? (·.name = x)

def after (ledger : Ledger) : SymbolTable.Call → Ledger
  | .add x y => { ledger with live := ledger.live ++ [⟨x, y⟩] }
  | .remove x => { ledger with live := dropLatest x ledger.live }
  | .removeLater x => { ledger with queued := ledger.queued ++ [x] }
  -- from the right, so the name that was queued last goes first
  | .flush => ⟨ledger.queued.foldr dropLatest ledger.live, []⟩

/-- The bindings of a name, the most recent one first. -/
def stack (live : List Entry) (x : String) : List Entry := live.reverse.filter (·.name = x)

theorem stack_add (live : List Entry) (x z : String) (y : Ty) :
    stack (live ++ [⟨x, y⟩]) z = if x = z then ⟨x, y⟩ :: stack live z else stack live z := by
  simp [stack, List.filter_cons]

theorem stack_dropLatest (live : List Entry) (x z : String) :
    stack (dropLatest x live) z = if x = z then (stack live z).tail else stack live z := by
  unfold stack dropLatest
  rw [List.reverse_reverse]
  -- on the list with the most recent binding first, up to the binding that is taken out
  induction live.reverse with
  | nil => simp
  | cons b bs ih =>
      by_cases hx : b.name = x
      · by_cases hz : x = z <;> simp [hx, hz]
      · by_cases hz : x = z
        · subst hz
          simpa [hx] using ih
        · rw [if_neg hz] at ih ⊢
          simp [hx, List.filter_cons, ih]

theorem head?_stack (live : List Entry) (x : String) : (stack live x).head? = latest? x live :=
  List.head?_filter

theorem stack_ne_nil_iff {live : List Entry} {x : String} :
    stack live x ≠ [] ↔ x ∈ live.map Entry.name := by
  simp [stack, List.filter_eq_nil_iff]

end Ledger

namespace SymbolTable

def after (table : SymbolTable) : Call → SymbolTable
  | .add x y => table.add x y
  | .remove x => (table.discard x).2
  | .removeLater x => table.removeLater x
  | .flush => table.flush

/-! ## Name by name -/

/-- The table has the judgments of the live bindings, and no entry without a judgment. -/
structure Represents (table : SymbolTable) (ledger : Ledger) : Prop where
  proper : table.Proper
  bindings : ∀ x, table.bindings x = (Ledger.stack ledger.live x).map Ledger.Entry.judgment
  removals : table.removals = ledger.queued.reverse

namespace Represents

variable {table : SymbolTable} {ledger : Ledger}

theorem empty : SymbolTable.empty.Represents ⟨[], []⟩ :=
  ⟨proper_empty, fun x => bindings_empty x, rfl⟩

theorem add (h : table.Represents ledger) (x : String) (y : Ty) :
    (table.add x y).Represents (ledger.after (.add x y)) := by
  refine ⟨h.proper.add x y, ?_, h.removals⟩
  intro z
  rw [bindings_add, h.bindings, h.bindings]
  show _ = (Ledger.stack (ledger.live ++ [⟨x, y⟩]) z).map Ledger.Entry.judgment
  rw [Ledger.stack_add]
  split
  · rename_i hxz
    subst hxz
    rfl
  · rfl

theorem remove (h : table.Represents ledger) (x : String) :
    (table.remove x).Represents (ledger.after (.remove x)) := by
  refine ⟨h.proper.remove x, ?_, (removals_remove table x).trans h.removals⟩
  intro z
  rw [bindings_remove, h.bindings, h.bindings]
  show _ = (Ledger.stack (Ledger.dropLatest x ledger.live) z).map Ledger.Entry.judgment
  rw [Ledger.stack_dropLatest]
  split
  · rename_i hxz
    subst hxz
    exact List.map_tail.symm
  · rfl

/-- Several removals, the last of the names first. -/
theorem foldl_remove (h : table.Represents ledger) (names : List String) :
    (names.reverse.foldl SymbolTable.remove table).Represents
      { ledger with live := names.foldr Ledger.dropLatest ledger.live } := by
  rw [List.foldl_reverse]
  induction names with
  | nil => exact h
  | cons x names ih => exact ih.remove x

/-- Every call keeps the relation. -/
theorem after (h : table.Represents ledger) (call : Call) :
    (table.after call).Represents (ledger.after call) := by
  cases call with
  | add x y => exact h.add x y
  | remove x => exact h.remove x
  | removeLater x =>
      refine ⟨h.proper, h.bindings, ?_⟩
      show x :: table.removals = (ledger.queued ++ [x]).reverse
      rw [h.removals, List.reverse_append]
      rfl
  | flush =>
      have hfold := h.foldl_remove ledger.queued
      rw [← h.removals] at hfold
      exact ⟨hfold.proper, hfold.bindings, rfl⟩

theorem foldl_after (h : table.Represents ledger) (calls : List Call) :
    (calls.foldl SymbolTable.after table).Represents (calls.foldl Ledger.after ledger) := by
  induction calls generalizing table ledger with
  | nil => exact h
  | cons call calls ih => exact ih (h.after call)

/-! ## What a table answers -/

theorem get? (h : table.Represents ledger) (x : String) :
    table.get? x = (Ledger.latest? x ledger.live).map Ledger.Entry.judgment := by
  rw [← Ledger.head?_stack, ← List.head?_map, ← h.bindings]
  rfl

theorem contains_iff (h : table.Represents ledger) (x : String) :
    table.contains x = true ↔ x ∈ ledger.live.map Ledger.Entry.name := by
  have hentry := h.proper.getElem? x
  rw [h.bindings] at hentry
  rw [← Ledger.stack_ne_nil_iff]
  show table.symbols.contains x = true ↔ _
  rw [Std.ExtTreeMap.contains_eq_isSome_getElem?, hentry]
  by_cases hstack : Ledger.stack ledger.live x = [] <;> simp [hstack]

theorem contains_eq_isSome (h : table.Represents ledger) (x : String) :
    table.contains x = (table.get? x).isSome := by
  rw [Bool.eq_iff_iff, h.contains_iff, ← Ledger.stack_ne_nil_iff, h.get?, ← Ledger.head?_stack]
  cases Ledger.stack ledger.live x <;> simp

theorem size_eq (h : table.Represents ledger) :
    table.size = (ledger.live.map Ledger.Entry.name).dedup.length := by
  have hperm : table.symbols.keys.Perm (ledger.live.map Ledger.Entry.name).dedup := by
    refine (List.perm_ext_iff_of_nodup Std.ExtTreeMap.nodup_keys (List.nodup_dedup _)).mpr ?_
    intro x
    rw [Std.ExtTreeMap.mem_keys, List.mem_dedup, ← h.contains_iff]
    exact Std.ExtTreeMap.mem_iff_contains
  exact Std.ExtTreeMap.length_keys.symm.trans hperm.length_eq

end Represents

/-! ## The order of removals -/

variable {table table' : SymbolTable}

/-- A removal depends on the entry of its name and changes no other entry. -/
theorem getElem?_remove (table : SymbolTable) (x z : String) :
    (table.remove x).symbols[z]? =
      if x = z then (if (table.bindings x).tail = [] then none else some (table.bindings x).tail)
      else table.symbols[z]? := by
  unfold remove
  split
  · rename_i first next rest hbindings
    simp [Std.ExtTreeMap.getElem?_insert, hbindings]
  · rename_i hshort
    have htail : (table.bindings x).tail = [] := by
      rcases hb : table.bindings x with _ | ⟨first, _ | ⟨next, rest⟩⟩
      · rfl
      · rfl
      · exact absurd hb (hshort first next rest)
    simp [Std.ExtTreeMap.getElem?_erase, htail]

theorem remove_comm (table : SymbolTable) (x y : String) :
    (table.remove x).remove y = (table.remove y).remove x := by
  by_cases hxy : x = y
  · rw [hxy]
  refine ext_entries ?_ ?_
  · intro z
    have hyx : ¬y = x := fun e => hxy e.symm
    simp only [getElem?_remove, bindings_remove, if_neg hxy, if_neg hyx]
    by_cases hx : x = z
    · have hy : ¬y = z := fun e => hxy (hx.trans e.symm)
      simp [hx, hy]
    · simp [hx]
  · simp only [removals_remove]

theorem remove_withQueue (table : SymbolTable) (names : List String) (x : String) :
    ({ table with removals := names } : SymbolTable).remove x =
      { table.remove x with removals := names } := by
  refine ext_entries ?_ (removals_remove _ x)
  intro z
  rw [getElem?_remove]
  exact (getElem?_remove table x z).symm

/-- A flush carries out the removals on a table without a queue. -/
theorem flush_eq (table : SymbolTable) :
    table.flush = table.removals.foldl remove { table with removals := [] } := by
  have hfold : ∀ names : List String, ∀ table : SymbolTable,
      { names.foldl remove table with removals := [] } =
        names.foldl remove { table with removals := [] } := by
    intro names
    induction names with
    | nil => exact fun _ => rfl
    | cons x names ih =>
        intro table
        rw [List.foldl_cons, List.foldl_cons, remove_withQueue table [] x]
        exact ih (table.remove x)
  exact hfold table.removals table

/-- Only the queued names count, and how often each of them is queued. -/
theorem flush_of_perm (hsymbols : table.symbols = table'.symbols)
    (hremovals : table.removals.Perm table'.removals) : table.flush = table'.flush := by
  rw [flush_eq, flush_eq, hsymbols]
  exact hremovals.foldl_eq' (fun x _ y _ table => remove_comm table x y) _

/-- **The table is a list of live bindings.** After any calls on an empty table, it has the judgments of
the bindings that are live in the list, where an addition is appended and a removal takes out the most
recent binding of its name. A removal says whether there is such a binding, the visible judgment is that
of the most recent one, no name has an entry without a judgment, and the size counts the names of live
bindings. A flush leaves the same table for every order in which the queued names may have been
queued. -/
theorem refines_live_bindings (calls : List Call) :
    let table := calls.foldl after empty
    let ledger := calls.foldl Ledger.after ⟨[], []⟩
    table.Represents ledger ∧
    (∀ x, (table.discard x).1 = true ↔ x ∈ ledger.live.map Ledger.Entry.name) ∧
    (∀ x, table.get? x = (Ledger.latest? x ledger.live).map Ledger.Entry.judgment) ∧
    (∀ x : String, table.symbols[x]? ≠ some []) ∧
    (∀ x, table.contains x = (table.get? x).isSome) ∧
    table.size = (ledger.live.map Ledger.Entry.name).dedup.length ∧
    ∀ calls' : List Call, (calls'.foldl after empty).symbols = table.symbols →
      (calls'.foldl after empty).removals.Perm table.removals →
      (calls'.foldl after empty).flush = table.flush := by
  intro table ledger
  have h : table.Represents ledger := Represents.empty.foldl_after calls
  exact ⟨h, h.contains_iff, h.get?, h.proper, h.contains_eq_isSome, h.size_eq,
    fun _ hsymbols hremovals => flush_of_perm hsymbols hremovals⟩

/-- Two bindings of `x` with one of `y` between them. The removals of `x` and `y` are queued in one run
before the bindings are there, and in the other run after them and the other way round. -/
theorem refines_live_bindings_of_two_queues :
    let a : Ty := .mono (.plain "A")
    let b : Ty := .mono (.plain "B")
    let c : Ty := .mono (.plain "C")
    let early : List Call :=
      [.removeLater "x", .removeLater "y", .add "x" a, .add "y" b, .add "x" c]
    let late : List Call :=
      [.add "x" a, .add "y" b, .add "x" c, .removeLater "y", .removeLater "x"]
    (early.foldl after empty).flush = (late.foldl after empty).flush ∧
      (late.foldl after empty).flush.get? "x" = some ⟨.const "x", a⟩ ∧
      (late.foldl after empty).flush.get? "y" = none ∧ (late.foldl after empty).size = 2 := by
  intro a b c early late
  obtain ⟨-, -, -, -, -, hsize, hflush⟩ := refines_live_bindings late
  obtain ⟨-, -, hget, -⟩ := refines_live_bindings (late ++ [.flush])
  exact ⟨hflush early rfl (List.Perm.swap "x" "y" []), hget "x", hget "y", hsize⟩

end SymbolTable

end IndexedLambda
