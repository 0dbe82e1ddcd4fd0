import IndexedLambda.Evaluation.Equality
import IndexedLambda.Types.Render
import IndexedLambda.Unification.Context
/-!
# Unification

`TypeContext.unify` makes two types equal by binding variables, or says why it cannot. A variable is
bound to the other side unless it occurs in it; two applications of one constant are unified
parameter by parameter, and then index by index. An index that is not a variable has to be
computationally equal to the other one.

What is bound is written out each time, whether or not a record is kept, and so is the type in which a
variable was found; everything else is written for the record only.

Comparing index terms evaluates them, so unification takes the instruction set and a bound on the
depth of its recursion, as evaluation does. For types without indices the bound only has to exceed
the depth of the resolved types.
-/

namespace IndexedLambda.TypeContext

/-- Puts two types into one class. One of them has to be a variable; if both are, the first joins
the class of the second. -/
def union (a b : Monotype) : ContextM Unit :=
  match a, b with
  | .var v, b => bindType v b
  | a, .var v => bindType v a
  | a, b => do throw (.rigidUnion (← ofExcept a.render) (← ofExcept b.render))

/-- Relates the pairs of two lists from left to right, up to the first failure. -/
def pairwise {α : Type} (relate : α → α → ContextM Status) : List α → List α → ContextM Status
  | a :: as, b :: bs => do
    let status ← relate a b
    if status = .ok then pairwise relate as bs else return status
  | _, _ => return .ok

/-- Binds a variable to a type in which it does not occur. -/
def bindUnlessInside (v : TypeVariable) (m : Monotype) : ContextM Status := do
  let resolved := (← get).resolve m
  if resolved.hasInside v then
    let shown ← ofExcept resolved.render
    record .occursCheck (.ok v.name) (.ok shown) (v.name ++ " occurs in " ++ shown)
    return .occursCheckFailed
  else
    let shown ← ofExcept m.render
    record .bind (.ok v.name) (.ok shown) (v.name ++ " := " ++ shown)
    bindType v m
    return .ok

/-- Unifies two index terms. An index variable is bound to the other side; other terms have to be
computationally equal. -/
def unifyKind (natives : InstructionSet) (fuel : Nat) (a b : Term) : ContextM Status := do
  let c ← get
  match c.findKind a, c.findKind b with
  | ta, tb =>
    if ta.StrictEq tb then
      record .identity (.ok ta.display) (.ok tb.display) "same index"
      return .ok
    else
      match ta, tb with
      | .var v, tb =>
        record .bindIndex (.ok v.name) (.ok tb.display) (v.name ++ " := " ++ tb.display)
        bindKind v tb
        return .ok
      | ta, .var v =>
        record .bindIndex (.ok v.name) (.ok ta.display) (v.name ++ " := " ++ ta.display)
        bindKind v ta
        return .ok
      | ta, tb =>
        match ta.convertible natives fuel tb with
        | .error fault => throw fault
        | .ok true =>
          record .identity (.ok ta.display) (.ok tb.display) "equal indices"
          return .ok
        | .ok false =>
          record .error (.ok ta.display) (.ok tb.display) "indices differ"
          return .kindMismatch

/-- The indices of a type; only an instance has some. -/
def indexOf : Monotype → List (Term × Monotype)
  | .inst _ _ index => index
  | _ => []

/-- Unifies two types that are not variables, given how their parts are unified. The heads need the
same name, the same number of parameters and the same number of indices. -/
def decompose (unifyType : Monotype → Monotype → ContextM Status)
    (unifyIndex : Term → Term → ContextM Status) (a b : Monotype) : ContextM Status := do
  let (aName, aParams) := a.unapply
  let (bName, bParams) := b.unapply
  let failWith (status : Status) (detail : String) : ContextM Status := do
    record .error a.render b.render detail
    return status
  if aName ≠ bName then
    failWith .constantMismatch s!"`{aName}` is not `{bName}`"
  else if aParams.length ≠ bParams.length then
    failWith .paramLengthMismatch
      s!"`{aName}` applied to {aParams.length} and {bParams.length} parameters"
  else if (indexOf a).length ≠ (indexOf b).length then
    failWith .paramLengthMismatch s!"{(indexOf a).length} and {(indexOf b).length} indices"
  else
    record .decompose a.render b.render s!"unify the parameters of `{aName}` pairwise"
    let status ← pairwise unifyType aParams bParams
    if status = .ok then
      pairwise (fun i j => do
        let status ← unifyIndex i.1 j.1
        if status = .ok then unifyType i.2 j.2 else return status) (indexOf a) (indexOf b)
    else return status

/-- Makes two types the same, or says why they cannot be. -/
def unify (natives : InstructionSet) : Nat → Monotype → Monotype → ContextM Status
  | 0, _, _ => throw .outOfFuel
  | n + 1, a, b => do
    let c ← get
    match c.find a, c.find b with
    | ta, tb =>
      if ta.StrictEq tb then
        record .identity ta.render tb.render "same representative"
        return .ok
      else
        match ta, tb with
        | .var v, tb => bindUnlessInside v tb
        | ta, .var v => bindUnlessInside v ta
        | ta, tb => decompose (unify natives n) (unifyKind natives n) ta tb

end IndexedLambda.TypeContext
