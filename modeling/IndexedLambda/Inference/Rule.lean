import IndexedLambda.Algebra.Operation
import IndexedLambda.Inference.Context
/-!
# The inference rules

Rules are run one at a time, in the order of a proof:

    x: σ ∈ Γ    t = Inst(σ)          Γ ⊢ e0: t0    Γ ⊢ e1: t1    t0 = t1 -> t2
    ----------------------- Var      ------------------------------------------ App
           Γ ⊢ x: t                                Γ ⊢ (e0 e1): t2

    Γ, x: t0 ⊢ e: t1                 Γ ⊢ e0: t0    Γ, x: Gen(t0) ⊢ e1: t1
    ------------------------ Abs     ------------------------------------ Let
    Γ ⊢ (λx . e): t0 -> t1               Γ ⊢ let x = e0 in e1: t1

A failing rule makes a report and leaves the context usable. Abs and Let extend Γ before their last
premise is known. They give an open premise, which is discharged with the judgment of the body.
-/

namespace IndexedLambda

/-- An abstraction that waits for its body. -/
structure OpenAbs where
  param : String
  /-- The type the parameter was given. -/
  domain : Monotype

/-- A local definition that waits for its body. -/
structure OpenLet where
  name : String
  assignment : Term

namespace Inference

/-- Var: looks a name up in Γ and instantiates its type. -/
def var (name : String) : InferM Conclusion := do
  match (← get).symbols.get? name with
  | none =>
    report (.missingName "Var" (.const name))
    return .failed .nameNotInContext
  | some j =>
    let m ← instantiate j.type
    let rule := match j.type with
      | .bare (.mono _) => InferRule.varLookup
      | _ => .instantiate
    record fun _ => do
      return ⟨j.term.display, ← m.render, rule, name ++ ": " ++ (← j.type.render)⟩
    return .concluded ⟨j.term, .mono m⟩

/-- App: the type of the operator is that of the operand to a fresh type. Premises with binders are
instantiated first. -/
def app (ev : Evaluator) (operator operand : Judgment) : InferM Conclusion := do
  let t0 ← instantiate operator.type
  let t1 ← instantiate operand.type
  let t2 ← onTypes TypeContext.fresh
  let expected := Monotype.arrow t1 t2
  let status ← onTypes (TypeContext.unify ev.natives ev.fuel t0 expected)
  if status = .ok then
    let term := Term.app operator.term operand.term
    let m := (← get).types.find t2
    record fun _ => do
      return ⟨term.display, ← m.render, .call, (← t0.render) ++ " = " ++ (← expected.render)⟩
    return .concluded ⟨term, .mono m⟩
  else
    report ⟨"App", status, [operator, operand], none⟩
    return .failed status

/-- Abs: binds the parameter to a fresh type until the body is known. -/
def abs (param : String) : InferM OpenAbs := do
  let domain ← onTypes TypeContext.fresh
  add param (.mono domain)
  return ⟨param, domain⟩

/-- Completes an abstraction with its body. The parameter leaves Γ, and its occurrences in the body
become a fresh bound variable. -/
def dischargeAbs (premise : OpenAbs) (body : Judgment) : InferM Conclusion := do
  let _ ← remove premise.param
  let range ← instantiate body.type
  let v ← onTerms NameTable.freshVar
  let e ← ofExcept (body.term.abstractConst premise.param v)
  let term ← ofExcept (e.bind [v.name])
  let m := Monotype.arrow premise.domain range
  record fun _ => do return ⟨term.display, ← m.render, .lambda, ← body.render⟩
  return .concluded ⟨term, .mono m⟩

/-- Let: binds the name to the generalised type until the body is known. -/
def letIn (name : String) (bound : Judgment) : InferM OpenLet := do
  let m ← instantiate bound.type
  let p := (← get).generalize m
  record fun _ => do
    return ⟨bound.term.display, ← p.render, .letGen, name ++ " := Gen(" ++ (← m.render) ++ ")"⟩
  add name p.toType
  return ⟨name, bound.term⟩

/-- Completes a local definition with its body, whose type it takes. The name leaves Γ. -/
def dischargeLet (premise : OpenLet) (body : Judgment) : InferM Conclusion := do
  let _ ← remove premise.name
  let term := Term.define .letIn premise.name premise.assignment body.term
  record fun _ => do return ⟨term.display, ← body.type.render, .letIn, ← body.render⟩
  return .concluded ⟨term, body.type⟩

end Inference

end IndexedLambda
