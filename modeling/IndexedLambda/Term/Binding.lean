import IndexedLambda.Term.Shift
/-!
# Binding names

`Term.bind` builds an abstraction: it captures the free occurrences of the binders' names in a body
and pushes every other free occurrence past the new binders. `Term.abstractConst` prepares a body in
which the bound thing is still a constant, and `Term.assignFree` prepares an argument whose
unassigned occurrences are to stay free.
-/

namespace IndexedLambda

/-- Depth of the innermost binder with the given name, for binders listed outermost first. -/
def binderDepth? (name : String) : List String → Option Nat
  | [] => none
  | x :: xs => (binderDepth? name xs).or (if x = name then some (xs.length + 1) else none)

/-- An occurrence under `offset` binders of a body, after the body is put under new binders. A
bound occurrence stays. A free one with the name of a binder is captured by the innermost such
binder; any other free one is pushed past all of them, and gets the first free depth if it was
unassigned. -/
def Variable.capture (binders : List String) (offset : Nat) (v : Variable) :
    Except Fault Variable :=
  if v.depth ≠ 0 ∧ v.depth ≤ offset then .ok v
  else
    match binderDepth? v.name binders with
    | some d => do return { v with depth := ← addWord offset d }
    | none =>
      if v.depth = 0 then do
        return { v with depth := ← addWord (← addWord offset binders.length) 1 }
      else do return { v with depth := ← addWord v.depth binders.length }

namespace Term

/-- Captures the binders' names in a term that sits under `offset` further binders. -/
def capture (binders : List String) (offset : Nat) (t : Term) : Except Fault Term :=
  t.traverse (fun n offset => addWord offset n)
    (fun offset v => do return .var (← v.capture binders offset)) offset

/-- The abstraction of `body` over at least one name, outermost first. -/
def bind (names : List String) (body : Term) : Except Fault Term :=
  if names.isEmpty then .error .noBinders
  else do return .abs (numbered names) (← body.capture names 0)

mutual
/-- Gives unassigned occurrences the first free depth, so that they stay free once the term is
inserted as an argument. `bind` has assigned every occurrence inside an abstraction already, so an
abstraction is left as it is. -/
def assignFree : Term → Term
  | .var v => .var (if v.isUnassigned then { v with depth := 1 } else v)
  | .abs binders body => .abs binders body
  | .app l r => .app l.assignFree r.assignFree
  | .const c => .const c
  | .list elems => .list (assignFreeList elems)
  | .instr head args => .instr head (assignFreeList args)
  | .define form x a b => .define form x a.assignFree b.assignFree
  | .recur defs b => .recur (assignFreeDefs defs) b.assignFree
/-- `assignFree` on every element. -/
def assignFreeList : List Term → List Term
  | [] => []
  | t :: ts => t.assignFree :: assignFreeList ts
/-- `assignFree` on every assignment. -/
def assignFreeDefs : List (String × Term) → List (String × Term)
  | [] => []
  | (x, t) :: defs => (x, t.assignFree) :: assignFreeDefs defs
end

theorem assignFreeList_eq_map (ts : List Term) : assignFreeList ts = ts.map assignFree := by
  induction ts with
  | nil => rfl
  | cons t ts ih => rw [assignFreeList, ih, List.map_cons]

theorem assignFreeDefs_eq_map (defs : List (String × Term)) :
    assignFreeDefs defs = defs.map fun p => (p.1, p.2.assignFree) := by
  induction defs with
  | nil => rfl
  | cons p defs ih => rw [assignFreeDefs, ih, List.map_cons]

mutual
/-- Turns every constant `name` into the variable `v`, except inside a local definition that
defines the same name again. -/
def abstractConst (name : String) (v : Variable) : Term → Except Fault Term
  | .var w => .ok (.var w)
  | .const c => .ok (if c = name then .var v else .const c)
  | .abs binders body => do
    let inner ← v.shift (.up binders.length)
    return .abs binders (← body.abstractConst name inner)
  | .app l r => do return .app (← l.abstractConst name v) (← r.abstractConst name v)
  | .list elems => do return .list (← abstractConstList name v elems)
  | .instr head args => do return .instr head (← abstractConstList name v args)
  | .define form x a b =>
    if x = name then .ok (.define form x a b)
    else do return .define form x (← a.abstractConst name v) (← b.abstractConst name v)
  | .recur defs b =>
    if defines defs name then .ok (.recur defs b)
    else do return .recur (← abstractConstDefs name v defs) (← b.abstractConst name v)
/-- `abstractConst` on every element. -/
def abstractConstList (name : String) (v : Variable) : List Term → Except Fault (List Term)
  | [] => .ok []
  | t :: ts => do return (← t.abstractConst name v) :: (← abstractConstList name v ts)
/-- `abstractConst` on every assignment. -/
def abstractConstDefs (name : String) (v : Variable) :
    List (String × Term) → Except Fault (List (String × Term))
  | [] => .ok []
  | (x, t) :: defs => do
    return (x, ← t.abstractConst name v) :: (← abstractConstDefs name v defs)
end

end Term

end IndexedLambda
