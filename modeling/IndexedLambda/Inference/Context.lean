import IndexedLambda.Inference.Report
import IndexedLambda.Inference.SymbolTable
import IndexedLambda.Unification.Unify
/-!
# The inference context

An inference context joins a symbol table, which is the Γ of the rules, with a type context, a name
table and the reports made so far. `Inference.instantiate` opens a type with fresh variables and
`Inference.generalize` closes a type over the variables that Γ does not mention.
-/

namespace IndexedLambda

/-- Which rule a recorded inference step used. -/
inductive InferRule where
  | varLookup | instantiate | call | lambda | letIn | letGen
  deriving DecidableEq

def InferRule.name : InferRule → String
  | varLookup => "var_lookup"
  | instantiate => "instantiate"
  | call => "call"
  | lambda => "lambda"
  | letIn => "let"
  | letGen => "let_gen"

/-- One recorded rule. -/
structure InferStep where
  expr : String
  type : String
  rule : InferRule
  detail : String
  deriving DecidableEq

structure Inference where
  symbols : SymbolTable
  types : TypeContext
  terms : NameTable
  /-- Reports in the order they were made. -/
  reports : Array Report
  tracing : Bool
  trace : Array InferStep

/-- Operations on an inference context. What they changed before a fault stays changed. -/
abbrev InferM := EStateM Fault Inference

namespace Inference

/-- An empty context whose first fresh type and term variables have the given numbers. -/
def startingAt (typeOffset termOffset : Nat) : Inference :=
  ⟨.empty, .startingAt typeOffset 0, .startingAt termOffset, #[], false, #[]⟩

/-- An operation on the type context. -/
def onTypes {α : Type} (x : ContextM α) : InferM α := fun s =>
  match x s.types with
  | .ok a types => .ok a { s with types }
  | .error f types => .error f { s with types }

/-- An operation on the name table. -/
def onTerms {α : Type} (x : EStateM Fault NameTable α) : InferM α := fun s =>
  match x s.terms with
  | .ok a terms => .ok a { s with terms }
  | .error f terms => .error f { s with terms }

/-- Binds a name in Γ. -/
def add (name : String) (type : Ty) : InferM Unit :=
  modify fun s => { s with symbols := s.symbols.add name type }

/-- Drops the visible binding of a name in Γ, and says whether there was one. -/
def remove (name : String) : InferM Bool :=
  modifyGet fun s =>
    let (found, symbols) := s.symbols.discard name
    (found, { s with symbols })

/-- Queues the removal of a name. -/
def removeLater (name : String) : InferM Unit :=
  modify fun s => { s with symbols := s.symbols.removeLater name }

/-- Runs the queued removals, the most recent one first. -/
def flushRemovals : InferM Unit := modify fun s => { s with symbols := s.symbols.flush }

/-- Adds a report. -/
def report (r : Report) : InferM Unit := modify fun s => { s with reports := s.reports.push r }

/-- The reports as diagnostics, in the order they were made. -/
def diagnostics (s : Inference) : Except Fault (List Diagnostic) :=
  s.reports.toList.mapM (·.diagnostic)

/-- Ends a proof attempt: it fails with every diagnostic if there were reports. -/
def finish (s : Inference) : Except Fault (Except (List Diagnostic) Unit) :=
  if s.reports.isEmpty then .ok (.ok ()) else do return .error (← s.diagnostics)

/-- Adds a step to the record, if one is kept. The step is written only then. -/
def record (step : Unit → Except Fault InferStep) : InferM Unit := do
  let s ← get
  if s.tracing then
    let written ← ofExcept (step ())
    set { s with trace := s.trace.push written }

/-- Keeps a record of rules and of unification steps. -/
def enableTracing : InferM Unit :=
  modify fun s => { s with tracing := true, types := { s.types with tracing := true } }

/-- Takes the recorded rules out. -/
def takeTrace : InferM (Array InferStep) :=
  modifyGet fun s => (s.trace, { s with trace := #[] })

/-! ## Opening and closing types -/

/-- Replaces every binder of a polytype by a fresh type variable, `_` excepted, and indexes a
dependent body by fresh term variables. -/
def instantiate (type : Ty) : InferM Monotype := do
  let p := type.toPolytype
  let binders := p.binders.filter fun v => !v.isWildcard
  let fresh ← binders.mapM fun _ => onTypes TypeContext.fresh
  let m ← onTerms p.body.indexedByFresh
  return m.subst (.assign (binders.zip fresh))

/-- The free type variables of Γ, as the classes have them. -/
def environment (s : Inference) : List TypeVariable :=
  s.symbols.judgments.flatMap fun j =>
    j.type.freeVariables.flatMap fun v => (s.types.resolve (.var v)).freeVariables

/-- Binds the variables of a type that Γ does not mention, and turns variables at the end of an
index back into binders. If nothing is left to bind, `_` is bound. -/
def generalize (s : Inference) (m : Monotype) : Polytype :=
  let m := s.types.resolve m
  let body : Body := match m with
    | .inst head params index => .generalizeIndex head params index
    | m => .mono m
  let env := s.environment
  match m.freeVariables.filter fun v => !env.contains v with
  | [] => (Ty.bare body).generalize
  | vars => ⟨vars, body⟩

end Inference

end IndexedLambda
