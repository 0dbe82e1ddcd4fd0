import IndexedLambda.Term.Shift
/-!
# What occurs in a term

Four readings of a term, each from left to right: whether a given variable occurs, which
occurrences lie deeper than a threshold, which identifiers are written, and which terms remain when
lists, instructions and local definitions are opened.
-/

namespace IndexedLambda.Term

mutual
/-- Whether the variable, name and depth, occurs. Inside an abstraction it is looked for at its
shifted depth. The search ends at the first occurrence. -/
def mentions (v : Variable) : Term → Except Fault Bool
  | .var w => .ok (w == v)
  | .abs binders body => do body.mentions (← v.shift (.up binders.length))
  | .app l r => do if ← l.mentions v then return true else r.mentions v
  | .const _ => .ok false
  | .list elems => mentionsList v elems
  | .instr _ args => mentionsList v args
  | .define _ _ a b => do if ← a.mentions v then return true else b.mentions v
  | .recur defs b => do if ← mentionsDefs v defs then return true else b.mentions v
/-- Whether the variable occurs in an element. -/
def mentionsList (v : Variable) : List Term → Except Fault Bool
  | [] => .ok false
  | t :: ts => do if ← t.mentions v then return true else mentionsList v ts
/-- Whether the variable occurs in an assignment. -/
def mentionsDefs (v : Variable) : List (String × Term) → Except Fault Bool
  | [] => .ok false
  | (_, t) :: defs => do if ← t.mentions v then return true else mentionsDefs v defs
end

mutual
/-- The occurrences deeper than `threshold`. Each abstraction on the way raises the threshold by
the number of its binders. -/
def deeperThan (threshold : Nat) : Term → Except Fault (List Variable)
  | .var v => .ok (if v.depth > threshold then [v] else [])
  | .abs binders body => do body.deeperThan (← addWord threshold binders.length)
  | .app l r => do return (← l.deeperThan threshold) ++ (← r.deeperThan threshold)
  | .const _ => .ok []
  | .list elems => deeperThanList threshold elems
  | .instr _ args => deeperThanList threshold args
  | .define _ _ a b => do return (← a.deeperThan threshold) ++ (← b.deeperThan threshold)
  | .recur defs b => do return (← deeperThanDefs threshold defs) ++ (← b.deeperThan threshold)
/-- `deeperThan` over all elements. -/
def deeperThanList (threshold : Nat) : List Term → Except Fault (List Variable)
  | [] => .ok []
  | t :: ts => do return (← t.deeperThan threshold) ++ (← deeperThanList threshold ts)
/-- `deeperThan` over all assignments. -/
def deeperThanDefs (threshold : Nat) : List (String × Term) → Except Fault (List Variable)
  | [] => .ok []
  | (_, t) :: defs => do return (← t.deeperThan threshold) ++ (← deeperThanDefs threshold defs)
end

mutual
/-- Every identifier that is written: variables, binders, constants and defined names. -/
def names : Term → List String
  | .var v => [v.name]
  | .abs binders body => binders.map (·.name) ++ body.names
  | .app l r => l.names ++ r.names
  | .const c => [c]
  | .list elems => namesList elems
  | .instr _ args => namesList args
  | .define _ x a b => x :: (a.names ++ b.names)
  | .recur defs b => namesDefs defs ++ b.names
/-- `names` over all elements. -/
def namesList : List Term → List String
  | [] => []
  | t :: ts => t.names ++ namesList ts
/-- `names` over all definitions. -/
def namesDefs : List (String × Term) → List String
  | [] => []
  | (x, t) :: defs => x :: (t.names ++ namesDefs defs)
end

mutual
/-- Opens lists, received arguments and the bodies of local definitions. A definition contributes
its name, as a constant, and its assignment; any other term is a leaf. -/
def leaves : Term → List Term
  | .list elems => leavesList elems
  | .instr _ args => leavesList args
  | .define _ x a b => .const x :: a :: b.leaves
  | .recur defs b => defs.flatMap (fun d => [.const d.1, d.2]) ++ b.leaves
  | .var v => [.var v]
  | .abs binders body => [.abs binders body]
  | .app l r => [.app l r]
  | .const c => [.const c]
/-- `leaves` over all elements. -/
def leavesList : List Term → List Term
  | [] => []
  | t :: ts => t.leaves ++ leavesList ts
end

end IndexedLambda.Term
