import IndexedLambda.Inference.Rule
import IndexedLambda.Proofs.Unification.Reachable
/-!
# Sessions

A session is a sequence of calls on an inference context: the inference rules, the work on the
symbol table and on the name table, and everything that can be done to the type context
(`Operation`). The next call finds the context that the last one left, also when that one failed or
ended in a fault.

Every call keeps what operations on the type context keep (`Call.run_keeps`). In particular it lets the
classes grow, and so does a whole session. What was known at some time in a session is therefore known
at any later time: `Session.context_refines` says this of single entries and of resolution.
-/

namespace IndexedLambda

open Relation

namespace Inference

variable {α : Type}

/-- At most the record itself changes. -/
theorem keeps_record {P : Inference → Prop} (hP : ∀ s trace, P s → P { s with trace })
    (step : Unit → Except Fault InferStep) : Keeps P (record step) := by
  intro s hs
  show P (endOf ((if s.tracing then _ else _ : InferM Unit) s))
  split
  · cases step () with
    | ok written => exact hP s _ hs
    | error f => exact hs
  · exact hs

/-- A property of the type context, and whether a record of rules is kept. -/
structure Kept (P : TypeContext → Prop) (tracing : Bool) (s : Inference) : Prop where
  types : P s.types
  tracing : s.tracing = tracing

section Kept

variable {P : TypeContext → Prop} {tracing : Bool}

theorem kept_onTypes {x : ContextM α} (hx : Keeps P x) : Keeps (Kept P tracing) (onTypes x) := by
  intro s hs
  have hend := hx s.types hs.types
  unfold onTypes
  cases hr : x s.types with
  | ok a types => exact ⟨by rwa [hr] at hend, hs.tracing⟩
  | error f types => exact ⟨by rwa [hr] at hend, hs.tracing⟩

theorem kept_onTerms (x : EStateM Fault NameTable α) : Keeps (Kept P tracing) (onTerms x) := by
  intro s hs
  unfold onTerms
  cases x s.terms with
  | ok a terms => exact ⟨hs.types, hs.tracing⟩
  | error f terms => exact ⟨hs.types, hs.tracing⟩

/-- A change elsewhere in the context. -/
theorem kept_modify {f : Inference → Inference} (htypes : ∀ s, (f s).types = s.types)
    (htracing : ∀ s, (f s).tracing = s.tracing) :
    Keeps (Kept P tracing) (modify f : InferM Unit) :=
  fun s hs => ⟨(htypes s).symm ▸ hs.types, (htracing s).trans hs.tracing⟩

theorem kept_record (step : Unit → Except Fault InferStep) : Keeps (Kept P tracing) (record step) :=
  keeps_record (fun _ _ hs => ⟨hs.types, hs.tracing⟩) step

theorem kept_report (r : Report) : Keeps (Kept P tracing) (report r) :=
  kept_modify (fun _ => rfl) fun _ => rfl

/-! ## The rules -/

variable (hP : TypeContext.Lasting P)

include hP

theorem kept_fresh : Keeps (Kept P tracing) (onTypes TypeContext.fresh) := kept_onTypes (.freshType hP)

theorem kept_instantiate (y : Ty) : Keeps (Kept P tracing) (instantiate y) :=
  .bind (.mapM (fun _ => kept_fresh hP) _) fun _ => .bind (kept_onTerms _) fun _ => .pure _

theorem kept_var (x : String) : Keeps (Kept P tracing) (var x) := by
  refine .bind .get fun s => ?_
  cases s.symbols.get? x with
  | none => exact .bind (kept_report _) fun _ => .pure _
  | some j => exact .bind (kept_instantiate hP _) fun _ => .bind (kept_record _) fun _ => .pure _

theorem kept_app (ev : Evaluator) (j₀ j₁ : Judgment) : Keeps (Kept P tracing) (app ev j₀ j₁) := by
  refine .bind (kept_instantiate hP _) fun t₀ => .bind (kept_instantiate hP _) fun t₁ =>
    .bind (kept_fresh hP) fun t₂ => .bind (kept_onTypes (hP.unify _ _ _ _)) fun status => ?_
  split
  · exact .bind .get fun _ => .bind (kept_record _) fun _ => .pure _
  · exact .bind (kept_report _) fun _ => .pure _

theorem kept_abs (x : String) : Keeps (Kept P tracing) (abs x) :=
  .bind (kept_fresh hP) fun _ => .bind (kept_modify (fun _ => rfl) fun _ => rfl) fun _ => .pure _

theorem kept_dischargeAbs (premise : OpenAbs) (body : Judgment) :
    Keeps (Kept P tracing) (dischargeAbs premise body) := by
  refine .bind (fun _ hs => ⟨hs.types, hs.tracing⟩) fun _ => .bind (kept_instantiate hP _) fun _ =>
    .bind (kept_onTerms _) fun v => .bind (.ofExcept _) fun e => ?_
  exact .bind (.ofExcept _) fun _ => .bind (kept_record _) fun _ => .pure _

theorem kept_letIn (x : String) (bound : Judgment) : Keeps (Kept P tracing) (letIn x bound) :=
  .bind (kept_instantiate hP _) fun _ => .bind .get fun _ => .bind (kept_record _) fun _ =>
    .bind (kept_modify (fun _ => rfl) fun _ => rfl) fun _ => .pure _

omit hP in
theorem kept_dischargeLet (premise : OpenLet) (body : Judgment) :
    Keeps (Kept P tracing) (dischargeLet premise body) :=
  .bind (fun _ hs => ⟨hs.types, hs.tracing⟩) fun _ => .bind (kept_record _) fun _ => .pure _

end Kept

end Inference

/-! ## Calls -/

/-- What can be done to an inference context. -/
inductive Call where
  | var (x : String)
  | app (ev : Evaluator) (operator operand : Judgment)
  | abs (x : String)
  | dischargeAbs (premise : OpenAbs) (body : Judgment)
  | letIn (x : String) (bound : Judgment)
  | dischargeLet (premise : OpenLet) (body : Judgment)
  | instantiate (y : Ty)
  | add (x : String) (y : Ty)
  | remove (x : String)
  | removeLater (x : String)
  | flushRemovals
  | report (r : Report)
  | enableTracing
  | takeTrace
  /-- Work on the type context alone. -/
  | onTypes (op : Operation)
  /-- Work on the name table alone, which may leave any other one. -/
  | setTerms (terms : NameTable)

namespace Call

/-- The context that a call leaves behind, however it ends. -/
def run (s : Inference) : Call → Inference
  | var x => endOf (Inference.var x s)
  | app ev operator operand => endOf (Inference.app ev operator operand s)
  | abs x => endOf (Inference.abs x s)
  | dischargeAbs premise body => endOf (Inference.dischargeAbs premise body s)
  | letIn x bound => endOf (Inference.letIn x bound s)
  | dischargeLet premise body => endOf (Inference.dischargeLet premise body s)
  | instantiate y => endOf (Inference.instantiate y s)
  | add x y => endOf (Inference.add x y s)
  | remove x => endOf (Inference.remove x s)
  | removeLater x => endOf (Inference.removeLater x s)
  | flushRemovals => endOf (Inference.flushRemovals s)
  | report r => endOf (Inference.report r s)
  | enableTracing => endOf (Inference.enableTracing s)
  | takeTrace => endOf (Inference.takeTrace s)
  | onTypes op => { s with types := op.run s.types }
  | setTerms terms => { s with terms }

/-- What lasts holds after every call. -/
theorem run_keeps {P : TypeContext → Prop} (hP : TypeContext.Lasting P) {s : Inference} (hs : P s.types)
    (call : Call) : P (call.run s).types := by
  have hkept : Inference.Kept P s.tracing s := ⟨hs, rfl⟩
  cases call with
  | var x => exact (Inference.kept_var hP x s hkept).types
  | app ev operator operand => exact (Inference.kept_app hP ev operator operand s hkept).types
  | abs x => exact (Inference.kept_abs hP x s hkept).types
  | dischargeAbs premise body => exact (Inference.kept_dischargeAbs hP premise body s hkept).types
  | letIn x bound => exact (Inference.kept_letIn hP x bound s hkept).types
  | dischargeLet premise body => exact (Inference.kept_dischargeLet premise body s hkept).types
  | instantiate y => exact (Inference.kept_instantiate hP y s hkept).types
  | onTypes op => exact op.run_keeps hP hs
  | enableTracing => exact hP.of_same hs rfl rfl
  | _ => exact hs

end Call

/-! ## Sessions -/

/-- The second context comes out of the first by calls. -/
def Session : Inference → Inference → Prop :=
  ReflTransGen fun s s' => ∃ call : Call, call.run s = s'

namespace Session

open TypeContext (GrownFrom)

variable {s₀ s s' : Inference}

theorem grows (hs : s.types.known.Acyclic) (h : Session s s') :
    Grows .all s.types.known s'.types.known := by
  suffices GrownFrom s.types.known s'.types from this.grows
  induction h with
  | refl => exact ⟨hs, .refl⟩
  | tail _ hstep ih =>
      obtain ⟨call, rfl⟩ := hstep
      exact call.run_keeps TypeContext.grownFrom_lasting ih

theorem acyclic {offset : Nat} {number : Int} (h₀ : s₀.types = .startingAt offset number)
    (h : Session s₀ s) : s.types.known.Acyclic := by
  have hstart : s₀.types.known.Acyclic := by
    rw [h₀]
    exact TypeContext.acyclic_startingAt offset number
  exact (h.grows hstart).acyclic hstart

/-- **Contexts only ever refine.** Nothing that was bound at some time in a session is bound anew or
unbound later, and to resolve a type is the first half of resolving it later. So types that are equal,
or strictly equal, once they are resolved remain so. -/
theorem context_refines {offset : Nat} {number : Int} (h₀ : s₀.types = .startingAt offset number)
    (h : Session s₀ s) (h' : Session s s') :
    (∀ key m, s.types.classes.get? key = some m → s'.types.classes.get? key = some m) ∧
    (∀ key t, s.types.kinds.get? key = some t → s'.types.kinds.get? key = some t) ∧
    (∀ m, s'.types.resolve (s.types.resolve m) = s'.types.resolve m) ∧
    (∀ m, s.types.resolve (s.types.resolve m) = s.types.resolve m) ∧
    (∀ m n, s.types.resolve m = s.types.resolve n → s'.types.resolve m = s'.types.resolve n) ∧
    ∀ m n, (s.types.resolve m).StrictEq (s.types.resolve n) →
      (s'.types.resolve m).StrictEq (s'.types.resolve n) := by
  have hacyclic := h.acyclic h₀
  have hgrows := h'.grows hacyclic
  have hresolve : ∀ m, s'.types.resolve (s.types.resolve m) = s'.types.resolve m :=
    hgrows.resolve_resolve hacyclic
  refine ⟨fun _ _ => hgrows.get?_type, fun _ _ => hgrows.get?_kind, hresolve,
    hacyclic.resolve_resolve, fun m n hmn => ?_, fun m n hmn => ?_⟩
  · calc s'.types.resolve m = s'.types.resolve (s.types.resolve m) := (hresolve m).symm
      _ = s'.types.resolve (s.types.resolve n) := by rw [hmn]
      _ = s'.types.resolve n := hresolve n
  · rw [← hresolve m, ← hresolve n]
    exact s'.types.known.resolve_strictEq hmn

/-- A unification that fails at its second component has bound `a` before, and an application builds
on this. -/
theorem context_refines_after_failure :
    let nat : Monotype := .plain "Nat"
    let bool : Monotype := .plain "Bool"
    let a : Monotype := .named "a"
    let b : Monotype := .named "b"
    let ev : Evaluator := ⟨fun _ _ => .fail none, 20⟩
    let s := (Call.onTypes (.unify ev (.arrow a nat) (.arrow bool bool))).run (.startingAt 0 0)
    let s' := (Call.app ev ⟨.const "f", .mono (.arrow b nat)⟩ ⟨.const "x", .mono (.list a)⟩).run s
    (TypeContext.unify ev.natives ev.fuel (.arrow a nat) (.arrow bool bool)).run'
        (.startingAt 0 0) = some .constantMismatch ∧
      s.types.resolve a = bool ∧ s.types.resolve b = b ∧ s'.types.resolve b = .list bool ∧
      s'.types.resolve (s.types.resolve (.pair a b)) = s'.types.resolve (.pair a b) := by
  intro nat bool a b ev s s'
  have h : Session (.startingAt 0 0) s := .single ⟨_, rfl⟩
  have h' : Session s s' := .single ⟨_, rfl⟩
  have hrefines := context_refines rfl h h'
  exact ⟨by decide +kernel, by decide +kernel, by decide +kernel, by decide +kernel,
    hrefines.2.2.1 _⟩

end Session

end IndexedLambda
