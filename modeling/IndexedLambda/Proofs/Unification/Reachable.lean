import IndexedLambda.Algebra.Rule
import IndexedLambda.Proofs.Unification.Throughout
/-!
# Reachable contexts

`Operation` lists what can be done to a type context: unifying types and index terms, the operations
and the built-in rules of the type algebra, the work on the stack and the record of steps. Only
joining two classes by hand is left out, which checks nothing. An operation leaves a context behind
however it ends, with an answer, an error or a fault.

All of these touch the classes and the record through unification alone. So what unification keeps is
kept by every operation (`Lasting`, `Operation.run_keeps`). In particular every operation lets the
classes grow (`Operation.run_grownFrom`). Every context that is reached from an empty one is acyclic
for that reason, and what is said of models holds from one context to any later one.
-/

namespace IndexedLambda

open Relation

namespace TypeContext

/-- The classes have grown from given acyclic ones. -/
structure GrownFrom (base : Classes) (c : TypeContext) : Prop where
  acyclic : base.Acyclic
  grows : Grows .all base c.known

theorem GrownFrom.of_known {base : Classes} {c d : TypeContext} (h : GrownFrom base c)
    (hknown : d.known = c.known) : GrownFrom base d := by
  refine ⟨h.acyclic, ?_⟩
  rw [hknown]
  exact h.grows

end TypeContext

theorem Keeps.lift {α : Type} {P : TypeContext → Prop} {x : ContextM α} (hx : Keeps P x) :
    Keeps P x.toAlgebra := by
  intro c hc
  have hmid := hx c hc
  unfold ContextM.toAlgebra
  cases hr : x c with
  | error e c' => rwa [hr] at hmid
  | ok a c' => rwa [hr] at hmid

namespace TypeContext

/-- A property of contexts that lasts: unification keeps it, it survives when the record is taken out,
and apart from the classes and the record nothing matters for it. -/
structure Lasting (P : TypeContext → Prop) : Prop where
  unify : ∀ natives n a b, Keeps P (unify natives n a b)
  unifyKind : ∀ natives n s t, Keeps P (unifyKind natives n s t)
  cleared : ∀ c, P c → P { c with trace := #[] }
  of_same : ∀ {c d : TypeContext}, P c → d.known = c.known → d.trace = c.trace → P d

/-- A step that leaves the classes and the record alone. -/
theorem Lasting.keeps {ε α : Type} {P : TypeContext → Prop} (hP : Lasting P)
    {x : EStateM ε TypeContext α} (hknown : ∀ c, (endOf (x c)).known = c.known)
    (htrace : ∀ c, (endOf (x c)).trace = c.trace) : Keeps P x :=
  fun c hc => hP.of_same hc (hknown c) (htrace c)

theorem freshVar_known (c : TypeContext) : (endOf (freshVar c)).known = c.known := by
  unfold freshVar
  rw [Stateful.get_then]
  cases nextCount c.nextVar with
  | ok next => rfl
  | error f => rfl

theorem freshVar_trace (c : TypeContext) : (endOf (freshVar c)).trace = c.trace := by
  unfold freshVar
  rw [Stateful.get_then]
  cases nextCount c.nextVar with
  | ok next => rfl
  | error f => rfl

theorem popMany_known {α : Type} (want : Ty → Except Refusal α) (n : Nat) (c : TypeContext) :
    (endOf (Stack.popMany want n c)).known = c.known := by
  unfold Stack.popMany
  rw [Stateful.get_then]
  cases Stack.takeTop want n c.stack with
  | ok tops => rfl
  | error e => rfl

theorem popMany_trace {α : Type} (want : Ty → Except Refusal α) (n : Nat) (c : TypeContext) :
    (endOf (Stack.popMany want n c)).trace = c.trace := by
  unfold Stack.popMany
  rw [Stateful.get_then]
  cases Stack.takeTop want n c.stack with
  | ok tops => rfl
  | error e => rfl

end TypeContext

/-! ## The operations of the algebra -/

section Algebra

open TypeContext (Lasting fresh freshVar_known freshVar_trace popMany_known popMany_trace)

variable {P : TypeContext → Prop} (hP : Lasting P) (ev : Evaluator)

theorem Keeps.representative (m : Monotype) : Keeps P (Algebra.representative m) :=
  .bind .get fun _ => .pure _

include hP

theorem Keeps.freshType : Keeps P fresh :=
  .bind (hP.keeps freshVar_known freshVar_trace) fun _ => .pure _

theorem Keeps.require (a b : Monotype) : Keeps P (Algebra.require ev a b) := by
  unfold Algebra.require
  refine .bind (.lift (hP.unify _ _ a b)) fun status => ?_
  split
  · exact .pure ()
  · exact .bind .get fun c => .bind (.lift (.ofExcept _)) fun _ => .bind (.lift (.ofExcept _)) fun _ =>
      .throw _

theorem Keeps.applyTypes (a b : Monotype) :
    Keeps P (Algebra.applyTypes ev a b) :=
  .bind (.lift (.freshType hP)) fun _ => .bind (.require hP ev _ _) fun _ => .representative _

theorem Keeps.abstractType (m : Monotype) : Keeps P (Algebra.abstractType m) :=
  .bind (.lift (.freshType hP)) fun _ => .pure _

theorem Keeps.head (m : Monotype) : Keeps P (Algebra.head ev m) :=
  .bind (.lift (.freshType hP)) fun _ => .bind (.lift (.freshType hP)) fun _ =>
    .bind (.require hP ev _ _) fun _ => .representative _

theorem Keeps.tail (m : Monotype) : Keeps P (Algebra.tail ev m) :=
  .bind (.lift (.freshType hP)) fun _ => .bind (.lift (.freshType hP)) fun _ =>
    .bind (.require hP ev _ _) fun _ => .representative _

theorem Keeps.disjoin (m : Monotype) : Keeps P (Algebra.disjoin m) :=
  .bind (.lift (.freshType hP)) fun _ => .pure _

theorem Keeps.realize (a b c : Monotype) : Keeps P (Algebra.realize ev a b c) :=
  .bind (.lift (.freshType hP)) fun _ => .bind (.lift (.freshType hP)) fun _ =>
    .bind (.lift (.freshType hP)) fun _ => .bind (.require hP ev _ _) fun _ =>
      .bind (.require hP ev _ _) fun _ => .bind (.require hP ev _ _) fun _ => .representative _

theorem Keeps.declare (y : Ty) : Keeps P (Algebra.declare y) := by
  unfold Algebra.declare
  split
  · exact .pure _
  · exact .bind (.lift (.freshType hP)) fun _ => .pure _
  · refine .bind (.foldlM (fun b v => ?_) _ _) fun _ => .pure _
    exact .bind (.lift (.freshType hP)) fun _ => .pure _

theorem Keeps.popMany {α : Type} (want : Ty → Except Refusal α) (n : Nat) :
    Keeps P (Stack.popMany want n) := hP.keeps (popMany_known want n) (popMany_trace want n)

theorem Keeps.popOne {α : Type} (want : Ty → Except Refusal α) :
    Keeps P (Stack.popOne want) := by
  refine .bind (.popMany hP want 1) fun tops => ?_
  cases tops with
  | nil => exact .throw _
  | cons a as => exact .pure a

theorem Keeps.push (y : Ty) : Keeps P (Stack.push y) := hP.keeps (fun _ => rfl) fun _ => rfl

theorem Keeps.popAsPolytypes (n : Nat) : Keeps P (Stack.popAsPolytypes n) :=
  .bind (.popMany hP _ n) fun _ => .pure _

/-! ## The built-in rules -/

theorem Keeps.binary {f : Monotype → Monotype → AlgebraM Monotype}
    (h : ∀ a b, Keeps P (f a b)) : Keeps P (Rule.binary f) := by
  refine .bind (.popMany hP _ 2) fun tops => ?_
  split
  · exact .bind (h _ _) fun _ => .pure _
  · exact .throw _

theorem Keeps.unary {f : Monotype → AlgebraM Monotype} (h : ∀ m, Keeps P (f m)) :
    Keeps P (Rule.unary f) :=
  .bind (.popOne hP _) fun m => .bind (h m) fun _ => .pure _

theorem Keeps.realization : Keeps P (Rule.realization ev) := by
  refine .bind (.popMany hP _ 3) fun tops => ?_
  split
  · exact .bind (.realize hP ev _ _ _) fun _ => .pure _
  · exact .throw _

theorem Keeps.contextualization : Keeps P Rule.contextualization := by
  refine .bind (.popAsPolytypes hP 2) fun tops => ?_
  split
  · exact .pure _
  · exact .throw _

theorem Keeps.instantiation : Keeps P Rule.instantiation := by
  refine .bind (.popOne hP _) fun m => .bind (.tryCatch (.popOne hP _) fun refusal => ?_) fun _ => .pure _
  cases refusal with
  | error e => exact .bind (.push hP _) fun _ => .throw _
  | fault f => exact .throw _

theorem Keeps.builtin : ∀ entry ∈ (RuleTable.builtin ev).rules, Keeps P entry.2 := by
  simp only [RuleTable.builtin, List.forall_mem_cons]
  refine ⟨.binary hP (.applyTypes hP ev), .unary hP (.abstractType hP), .binary hP fun _ _ => .pure _,
    .unary hP (.head hP ev), .unary hP (.tail hP ev), .unary hP (.disjoin hP),
    .binary hP fun _ _ => .pure _, .realization hP ev, .contextualization hP, .instantiation hP, ?_,
    by simp⟩
  exact .bind (.popOne hP _) fun _ => .pure _

theorem Keeps.rule (id : Nat) : Keeps P ((RuleTable.builtin ev).apply id) := by
  unfold RuleTable.apply
  split
  · rename_i name rule hget
    have hmem : (name, rule) ∈ (RuleTable.builtin ev).rules := List.mem_of_getElem? hget
    exact .bind (Keeps.builtin hP ev _ hmem) fun y => .push hP y
  · exact .throw _

theorem Keeps.ruleNamed (name : String) :
    Keeps P ((RuleTable.builtin ev).applyNamed name) := by
  unfold RuleTable.applyNamed
  split
  · exact .rule hP ev _
  · exact .throw _

end Algebra

theorem TypeContext.grownFrom_lasting {base : Classes} : Lasting (GrownFrom base) where
  unify _ n _ _ _ hc :=
    ⟨hc.acyclic, hc.grows.trans (unify_grows n (hc.grows.acyclic hc.acyclic) (Region.all_holds _)
      (Region.all_holds _))⟩
  unifyKind _ n _ _ _ hc :=
    ⟨hc.acyclic, hc.grows.trans (unifyKind_grows n (hc.grows.acyclic hc.acyclic) trivial trivial)⟩
  cleared _ hc := hc.of_known rfl
  of_same hc hknown _ := hc.of_known hknown

/-- Whatever is in the classes has been written when it was bound. -/
theorem TypeContext.legible_lasting : Lasting fun c => c.known.types.Throughout Monotype.Legible where
  unify _ n a b := unify_keeps_legible n a b
  unifyKind _ n s t := unifyKind_keeps_throughout n s t
  cleared _ hc := hc
  of_same hc hknown _ := by rwa [hknown]

/-! ## Sequences of operations -/

/-- What can be done to a type context, short of joining two classes by hand. -/
inductive Operation where
  | unify (ev : Evaluator) (a b : Monotype)
  | unifyKind (ev : Evaluator) (s t : Term)
  | fresh
  | applyTypes (ev : Evaluator) (a b : Monotype)
  | abstractType (m : Monotype)
  | head (ev : Evaluator) (m : Monotype)
  | tail (ev : Evaluator) (m : Monotype)
  | disjoin (m : Monotype)
  | realize (ev : Evaluator) (a b c : Monotype)
  | declare (y : Ty)
  | push (y : Ty)
  | pop
  | popMonotype
  | popPolytype
  | popMonotypes (n : Nat)
  | popAsPolytypes (n : Nat)
  /-- A built-in rule by its number. -/
  | rule (ev : Evaluator) (id : Nat)
  /-- A built-in rule by its name. -/
  | ruleNamed (ev : Evaluator) (name : String)
  | enableTracing
  | takeTrace
  /-- Goes on with a child of the context. -/
  | inherit

namespace Operation

open TypeContext (GrownFrom)

/-- The context that an operation leaves behind, however it ends. -/
def run (c : TypeContext) : Operation → TypeContext
  | unify ev a b => endOf (TypeContext.unify ev.natives ev.fuel a b c)
  | unifyKind ev s t => endOf (TypeContext.unifyKind ev.natives ev.fuel s t c)
  | fresh => endOf (TypeContext.fresh c)
  | applyTypes ev a b => endOf (Algebra.applyTypes ev a b c)
  | abstractType m => endOf (Algebra.abstractType m c)
  | head ev m => endOf (Algebra.head ev m c)
  | tail ev m => endOf (Algebra.tail ev m c)
  | disjoin m => endOf (Algebra.disjoin m c)
  | realize ev m₁ m₂ m₃ => endOf (Algebra.realize ev m₁ m₂ m₃ c)
  | declare y => endOf (Algebra.declare y c)
  | push y => endOf (Stack.push y c)
  | pop => endOf (Stack.pop c)
  | popMonotype => endOf (Stack.popMonotype c)
  | popPolytype => endOf (Stack.popPolytype c)
  | popMonotypes n => endOf (Stack.popMonotypes n c)
  | popAsPolytypes n => endOf (Stack.popAsPolytypes n c)
  | rule ev id => endOf ((RuleTable.builtin ev).apply id c)
  | ruleNamed ev name => endOf ((RuleTable.builtin ev).applyNamed name c)
  | enableTracing => endOf (TypeContext.enableTracing c)
  | takeTrace => endOf (TypeContext.takeTrace c)
  | inherit => c.inherit

/-- What lasts holds after every operation. -/
theorem run_keeps {P : TypeContext → Prop} (hP : TypeContext.Lasting P) {c : TypeContext} (hc : P c)
    (op : Operation) : P (op.run c) := by
  cases op with
  | unify ev a b => exact hP.unify _ _ a b c hc
  | unifyKind ev s t => exact hP.unifyKind _ _ s t c hc
  | fresh => exact Keeps.freshType hP c hc
  | applyTypes ev a b => exact Keeps.applyTypes hP ev a b c hc
  | abstractType m => exact Keeps.abstractType hP m c hc
  | head ev m => exact Keeps.head hP ev m c hc
  | tail ev m => exact Keeps.tail hP ev m c hc
  | disjoin m => exact Keeps.disjoin hP m c hc
  | realize ev m₁ m₂ m₃ => exact Keeps.realize hP ev m₁ m₂ m₃ c hc
  | declare y => exact Keeps.declare hP y c hc
  | push y => exact Keeps.push hP y c hc
  | pop => exact Keeps.popOne hP _ c hc
  | popMonotype => exact Keeps.popOne hP _ c hc
  | popPolytype => exact Keeps.popOne hP _ c hc
  | popMonotypes n => exact Keeps.popMany hP _ n c hc
  | popAsPolytypes n => exact Keeps.popAsPolytypes hP n c hc
  | rule ev id => exact Keeps.rule hP ev id c hc
  | ruleNamed ev name => exact Keeps.ruleNamed hP ev name c hc
  | enableTracing => exact hP.of_same hc rfl rfl
  | takeTrace => exact hP.cleared c hc
  | inherit => exact hP.of_same (hP.cleared c hc) rfl rfl

/-- Every operation lets the classes grow. -/
theorem run_grownFrom {base : Classes} {c : TypeContext} (hc : GrownFrom base c) (op : Operation) :
    GrownFrom base (op.run c) :=
  run_keeps TypeContext.grownFrom_lasting hc op

end Operation

namespace TypeContext

/-- One operation of the allowed sort leads from a context to another. -/
def Step (allowed : Operation → Prop) (c d : TypeContext) : Prop :=
  ∃ op, allowed op ∧ op.run c = d

/-- The context is the result of allowed operations on an empty one. -/
def Reachable (allowed : Operation → Prop) (c : TypeContext) : Prop :=
  ∃ offset number, ReflTransGen (Step allowed) (startingAt offset number) c

theorem acyclic_startingAt (offset : Nat) (number : Int) :
    (startingAt offset number).known.Acyclic :=
  ⟨⟨fun _ => 0, fun v m h => by simp [startingAt] at h⟩,
    ⟨fun _ => 0, fun v w h => by simp [startingAt] at h⟩⟩

theorem grows_of_steps {allowed : Operation → Prop} {c d : TypeContext} (hc : c.known.Acyclic)
    (h : ReflTransGen (Step allowed) c d) : Grows .all c.known d.known := by
  suffices GrownFrom c.known d from this.grows
  induction h with
  | refl => exact ⟨hc, .refl⟩
  | tail _ hstep ih =>
      obtain ⟨op, -, rfl⟩ := hstep
      exact op.run_grownFrom ih

theorem legible_of_steps {allowed : Operation → Prop} {c d : TypeContext}
    (hc : c.known.types.Throughout Monotype.Legible) (h : ReflTransGen (Step allowed) c d) :
    d.known.types.Throughout Monotype.Legible := by
  induction h with
  | refl => exact hc
  | tail _ hstep ih =>
      obtain ⟨op, -, rfl⟩ := hstep
      exact op.run_keeps legible_lasting ih

theorem Reachable.legible {allowed : Operation → Prop} {c : TypeContext} (h : Reachable allowed c) :
    c.known.types.Throughout Monotype.Legible := by
  obtain ⟨offset, number, hsteps⟩ := h
  exact legible_of_steps (fun key m h => by simp [startingAt] at h) hsteps

theorem Reachable.acyclic {allowed : Operation → Prop} {c : TypeContext} (h : Reachable allowed c) :
    c.known.Acyclic := by
  obtain ⟨offset, number, hsteps⟩ := h
  have hstart := acyclic_startingAt offset number
  exact (grows_of_steps hstart hsteps).acyclic hstart

end TypeContext

end IndexedLambda
