import IndexedLambda.Algebra.Stack
import IndexedLambda.Unification.Unify
/-!
# Operations of the type algebra

Introduction and elimination of functions, pairs and unions. An elimination makes fresh variables
for the parts, unifies the given type with the shape it needs, and answers with the representative of
the part it is after.
-/

namespace IndexedLambda

/-- How far and with which native instructions index terms are evaluated. -/
structure Evaluator where
  natives : InstructionSet
  fuel : Nat

namespace Algebra

variable (ev : Evaluator)

/-- Unifies two types or fails with both of them in resolved form. -/
def require (a b : Monotype) : AlgebraM Unit := do
  let status ← TypeContext.unify ev.natives ev.fuel a b
  if status = .ok then return ()
  else
    let c ← get
    let left ← (ofExcept (c.resolve a).render : ContextM String)
    let right ← (ofExcept (c.resolve b).render : ContextM String)
    throw (.error (.unification status left right))

/-- The representative of a type in the current context. -/
def representative (m : Monotype) : AlgebraM Monotype := do return (← get).find m

/-- Function elimination: `a` is `b -> v`, which gives `v`. -/
def applyTypes (a b : Monotype) : AlgebraM Monotype := do
  let v ← TypeContext.fresh
  require ev a (.arrow b v)
  representative v

/-- Function introduction over a fresh domain. -/
def abstractType (m : Monotype) : AlgebraM Monotype := do
  return .arrow (← TypeContext.fresh) m

/-- First projection: `a` is `v & w`, which gives `v`. -/
def head (a : Monotype) : AlgebraM Monotype := do
  let v ← TypeContext.fresh
  let w ← TypeContext.fresh
  require ev a (.pair v w)
  representative v

/-- Second projection: `a` is `v & w`, which gives `w`. -/
def tail (a : Monotype) : AlgebraM Monotype := do
  let v ← TypeContext.fresh
  let w ← TypeContext.fresh
  require ev a (.pair v w)
  representative w

/-- Widens a type by a fresh alternative. -/
def disjoin (m : Monotype) : AlgebraM Monotype := do
  return .union m (← TypeContext.fresh)

/-- Case analysis: `a` is `v | w`, `b` is `v -> x` and `c` is `w -> x`, which gives `x`. -/
def realize (a b c : Monotype) : AlgebraM Monotype := do
  let v ← TypeContext.fresh
  let w ← TypeContext.fresh
  let x ← TypeContext.fresh
  require ev a (.union v w)
  require ev b (.arrow v x)
  require ev c (.arrow w x)
  representative x

/-- The second polytype in the context of the first, unwrapped when it binds nothing. -/
def contextualize (_ q : Polytype) : Ty := q.toType

/-- Instantiates every binder with a fresh variable, and indexes a dependent body by its own
variables. A polytype uses up a fresh variable even if it has no binder. -/
def declare : Ty → AlgebraM Monotype
  | .bare b => return b.indexedBySelf
  | .poly ⟨[], b⟩ => do
    let _ ← TypeContext.fresh
    return b.indexedBySelf
  | .poly p => do
    let body ← p.binders.foldlM (fun b v => do return b.instantiate v (← TypeContext.fresh)) p.body
    return body.indexedBySelf

end Algebra

end IndexedLambda
