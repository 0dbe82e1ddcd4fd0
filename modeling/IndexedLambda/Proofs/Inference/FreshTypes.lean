import IndexedLambda.Proofs.Algebra.StackBlind
import IndexedLambda.Proofs.Evaluation.Run
import IndexedLambda.Proofs.Inference.OldVariables
import IndexedLambda.Proofs.Inference.Session
import IndexedLambda.Proofs.Inference.Vocabulary
/-!
# Operations that keep to old variables

A context is clean if nothing in it mentions a variable that its counter is still to give out:
neither the classes nor the stack. Every operation on a type context that is given old variables
only leaves a clean context behind, and what it answers mentions variables that are old by then. The
counter goes up and stays within its range.

Such a statement is about all ends of a computation, and about its value if it has one. `Leads` says
both. It goes through sequences, because what was old stays old as the counter goes up.
-/

namespace IndexedLambda

/-! ## Where a computation leads -/

/-- How one state comes after another. Not every state comes after itself, but one that comes after
any state does. -/
structure Evolution (σ : Type) where
  later : σ → σ → Prop
  self : ∀ {s t}, later s t → later t t
  trans : ∀ {s t u}, later s t → later t u → later s u

/-- The computation leads to a later state, however it ends. If it ends well, its value is good in
that state. -/
structure Leads {ε σ α : Type} (E : Evolution σ) (good : σ → α → Prop) (x : EStateM ε σ α) (s : σ) :
    Prop where
  later : E.later s (endOf (x s))
  good : ∀ a s', x s = .ok a s' → good s' a

namespace Leads

variable {ε σ α β : Type} {E : Evolution σ} {G : σ → α → Prop} {H : σ → β → Prop}
  {x : EStateM ε σ α} {s s' : σ} {a : α}

theorem of_ok (h : x s = .ok a s') (hlater : E.later s s') (ha : G s' a) : Leads E G x s := by
  refine ⟨by rw [h]; exact hlater, fun b t hrun => ?_⟩
  rw [h] at hrun
  cases hrun
  exact ha

theorem of_error {e : ε} (h : x s = .error e s') (hlater : E.later s s') : Leads E G x s := by
  refine ⟨by rw [h]; exact hlater, fun b t hrun => ?_⟩
  rw [h] at hrun
  cases hrun

theorem pure (hs : E.later s s) (ha : G s a) :
    Leads E G (Pure.pure a : EStateM ε σ α) s := of_ok rfl hs ha

theorem throw (hs : E.later s s) (e : ε) : Leads E G (MonadExcept.throw e : EStateM ε σ α) s :=
  of_error rfl hs

theorem ofExcept (hs : E.later s s) (r : Except Fault α) :
    Leads E (fun _ a => r = .ok a) (IndexedLambda.ofExcept r) s := by
  cases r with
  | ok a => exact .pure hs rfl
  | error f => exact .throw hs f

theorem imp {G' : σ → α → Prop} (h : Leads E G x s)
    (hG : ∀ s' a, E.later s s' → G s' a → G' s' a) : Leads E G' x s := by
  refine ⟨h.later, fun a s' hrun => hG s' a ?_ (h.good a s' hrun)⟩
  have hlater := h.later
  rwa [hrun] at hlater

theorem bind {f : α → EStateM ε σ β} (hx : Leads E G x s)
    (hf : ∀ a s', E.later s s' → G s' a → Leads E H (f a) s') : Leads E H (x >>= f) s := by
  have hlater := hx.later
  cases hrun : x s with
  | error e s' =>
      rw [hrun] at hlater
      exact of_error (Stateful.bind_of_error hrun) hlater
  | ok a s' =>
      rw [hrun] at hlater
      have hrest := hf a s' hlater (hx.good a s' hrun)
      have hbind : (x >>= f) s = f a s' := Stateful.bind_of_ok hrun
      refine ⟨?_, fun b t h => hrest.good b t (hbind ▸ h)⟩
      rw [hbind]
      exact E.trans hlater hrest.later

theorem get (hs : E.later s s) : Leads E (fun s' t => t = s') (MonadState.get : EStateM ε σ σ) s :=
  of_ok rfl hs rfl

theorem tryCatch {handle : ε → EStateM ε σ α} (hx : Leads E G x s)
    (hhandle : ∀ e s', E.later s s' → Leads E G (handle e) s') :
    Leads E G (MonadExcept.tryCatch x handle) s := by
  have hlater := hx.later
  show Leads E G (EStateM.tryCatch x handle) s
  cases hrun : x s with
  | ok a s' =>
      rw [hrun] at hlater
      have hcatch : EStateM.tryCatch x handle s = .ok a s' := by
        unfold EStateM.tryCatch
        rw [hrun]
      exact of_ok hcatch hlater (hx.good a s' hrun)
  | error e s' =>
      rw [hrun] at hlater
      have hcatch : EStateM.tryCatch x handle s = handle e s' := by
        unfold EStateM.tryCatch
        rw [hrun]
        rfl
      have hrest := hhandle e s' hlater
      refine ⟨?_, fun b t h => hrest.good b t (hcatch ▸ h)⟩
      rw [hcatch]
      exact E.trans hlater hrest.later

theorem mapM {γ : Type} {f : γ → EStateM ε σ α}
    (hstays : ∀ {s s'} {a : α}, E.later s s' → G s a → G s' a) (hs : E.later s s)
    (hf : ∀ c s', E.later s s' → Leads E G (f c) s') (cs : List γ) :
    Leads E (fun s' as => ∀ a ∈ as, G s' a) (cs.mapM f) s := by
  induction cs generalizing s with
  | nil => exact .pure hs (by simp)
  | cons c cs ih =>
      rw [List.mapM_cons]
      refine .bind (hf c s hs) fun a t ht ha => ?_
      refine .bind (ih (E.self ht) fun c u hu => hf c u (E.trans ht hu)) fun as u hu has => ?_
      exact .pure (E.self hu) (List.forall_mem_cons.mpr ⟨hstays hu ha, has⟩)

theorem foldlM {γ : Type} {f : α → γ → EStateM ε σ α}
    (hf : ∀ a c s, E.later s s → G s a → Leads E G (f a c) s) (hs : E.later s s)
    (ha : G s a) (cs : List γ) : Leads E G (cs.foldlM f a) s := by
  induction cs generalizing a s with
  | nil => exact .pure hs ha
  | cons c cs ih =>
      rw [List.foldlM_cons]
      exact .bind (hf a c s hs ha) fun b t ht hb => ih (E.self ht) hb

end Leads

/-! ## Clean contexts -/

namespace TypeContext

variable {N : String → Prop} {c d : TypeContext}

/-- Type variables that are old, and terms whose variables have names of the given sort. -/
def old (N : String → Prop) (c : TypeContext) : Region := ⟨c.Old, fun t => t.NamedBy N⟩

theorem Before.sub (h : c.Before d) : (c.old N).Sub (d.old N) :=
  ⟨fun _ hv => h.old hv, fun _ ht => ht⟩

theorem old_wildcard (c : TypeContext) : c.Old .wildcard := by
  intro k _ heq
  have hname := Inference.isWildcard_dollar k c.number
  rw [show (⟨s!"${k}", c.number⟩ : TypeVariable) = .wildcard from heq.symm] at hname
  cases hname

/-- Nothing in the context mentions what is not old, and the counter is within its range. -/
structure Clean (N : String → Prop) (c : TypeContext) : Prop where
  acyclic : c.known.Acyclic
  classes : c.known.Confined (c.old N)
  stack : ∀ y ∈ c.stack, (c.old N).HoldsTy y
  bounded : c.nextVar < counterRange

/-- A later context is clean and has drawn more variables. -/
def evolution (N : String → Prop) : Evolution TypeContext where
  later c d := d.Clean N ∧ c.Before d
  self h := ⟨h.1, .refl _⟩
  trans h h' := ⟨h'.1, h.2.trans h'.2⟩

theorem Clean.later (hc : c.Clean N) : (evolution N).later c c := ⟨hc, .refl c⟩

/-- The classes are as they were. -/
theorem Clean.of_known (hc : c.Clean N) (hknown : d.known = c.known) (hbefore : c.Before d)
    (hstack : ∀ y ∈ d.stack, (d.old N).HoldsTy y) (hbounded : d.nextVar < counterRange) :
    (evolution N).later c d := by
  refine ⟨⟨?_, ?_, hstack, hbounded⟩, hbefore⟩
  · rw [hknown]
    exact hc.acyclic
  · rw [hknown]
    exact hc.classes.mono hbefore.sub

theorem freshVar_leads (hc : c.Clean N) :
    Leads (evolution N) (fun d v => d.Old v) freshVar c := by
  have hrun := c.freshVar_eq
  by_cases hroom : c.nextVar + 1 < counterRange
  · rw [if_pos hroom] at hrun
    have hbefore : c.Before { c with nextVar := c.nextVar + 1 } := ⟨rfl, Nat.le_succ _⟩
    refine .of_ok hrun (hc.of_known rfl hbefore (fun y hy => ?_) hroom) ?_
    · exact (hc.stack y hy).mono hbefore.sub
    · exact hbefore.old_numbered (Nat.lt_succ_self _)
  · rw [if_neg hroom] at hrun
    exact .of_error hrun hc.later

theorem fresh_leads (hc : c.Clean N) :
    Leads (evolution N) (fun d m => (d.old N).Holds m) fresh c :=
  .bind (freshVar_leads hc) fun _ _ hd hv => .pure hd.1.later (Region.holds_var.mpr hv)

/-- All but the classes and the record is the same. -/
structure Aside (c d : TypeContext) : Prop where
  number : d.number = c.number
  nextVar : d.nextVar = c.nextVar
  stack : d.stack = c.stack

theorem Aside.noted {e : TypeContext} (h : Aside c e) (step : Nat → UnifyStep) :
    Aside c (e.noted step) := by
  unfold TypeContext.noted
  split <;> exact ⟨h.number, h.nextVar, h.stack⟩

/-- The classes have grown within what is old. -/
theorem Clean.of_grows (hc : c.Clean N) (haside : Aside c d)
    (hgrows : Grows (c.old N) c.known d.known) : (evolution N).later c d := by
  have hbefore : c.Before d := ⟨haside.number, Nat.le_of_eq haside.nextVar.symm⟩
  refine ⟨⟨hgrows.acyclic hc.acyclic, (hc.classes.grows hgrows).mono hbefore.sub, ?_, ?_⟩, hbefore⟩
  · rw [haside.stack]
    exact fun y hy => (hc.stack y hy).mono hbefore.sub
  · rw [haside.nextVar]
    exact hc.bounded

theorem unify_leads (hc : c.Clean N) (natives : InstructionSet) (n : Nat) {a b : Monotype}
    (ha : (c.old N).Holds a) (hb : (c.old N).Holds b) :
    Leads (evolution N) (fun _ _ => True) (unify natives n a b) c := by
  refine ⟨?_, fun _ _ _ => trivial⟩
  have haside : Aside c (endOf (unify natives n a b c)) :=
    unify_keeps (fun _ step h => h.noted step) (fun _ _ _ h => ⟨h.number, h.nextVar, h.stack⟩)
      (fun _ _ _ h => ⟨h.number, h.nextVar, h.stack⟩) natives n a b c ⟨rfl, rfl, rfl⟩
  exact hc.of_grows haside (unify_grows n hc.acyclic (hc.classes.resolve hc.acyclic ha)
    (hc.classes.resolve hc.acyclic hb))

theorem unifyKind_leads (hc : c.Clean N) (natives : InstructionSet) (n : Nat) {s t : Term}
    (hs : s.NamedBy N) (ht : t.NamedBy N) :
    Leads (evolution N) (fun _ _ => True) (unifyKind natives n s t) c := by
  refine ⟨?_, fun _ _ _ => trivial⟩
  have haside : Aside c (endOf (unifyKind natives n s t c)) :=
    unifyKind_keeps (fun _ step h => h.noted step)
      (fun _ _ _ h => ⟨h.number, h.nextVar, h.stack⟩) natives n s t c ⟨rfl, rfl, rfl⟩
  exact hc.of_grows haside (unifyKind_grows n hc.acyclic (hc.classes.find_kind hc.acyclic hs)
    (hc.classes.find_kind hc.acyclic ht))

theorem lift_leads {α : Type} {E : Evolution TypeContext} {good : TypeContext → α → Prop}
    {x : ContextM α} (hx : Leads E good x c) : Leads E good x.toAlgebra c := by
  have hlater := hx.later
  cases hrun : x c with
  | ok a d =>
      rw [hrun] at hlater
      have hlift : x.toAlgebra c = .ok a d := by
        unfold ContextM.toAlgebra
        rw [hrun]
      exact .of_ok hlift hlater (hx.good a d hrun)
  | error f d =>
      rw [hrun] at hlater
      have hlift : x.toAlgebra c = .error (.fault f) d := by
        unfold ContextM.toAlgebra
        rw [hrun]
      exact .of_error hlift hlater

/-! ## The operations of the algebra -/

section Algebra

variable (ev : Evaluator)

theorem holds_two {R : Region} {head : TypeConstant} {a b : Monotype} (ha : R.Holds a)
    (hb : R.Holds b) : R.Holds (.app head [a, b]) :=
  Region.holds_app.mpr (List.forall_mem_cons.mpr ⟨ha, List.forall_mem_singleton.mpr hb⟩)

theorem require_leads (hc : c.Clean N) {a b : Monotype} (ha : (c.old N).Holds a)
    (hb : (c.old N).Holds b) :
    Leads (evolution N) (fun _ _ => True) (Algebra.require ev a b) c := by
  refine .bind (lift_leads (unify_leads hc _ _ ha hb)) fun status d hd _ => ?_
  split
  · exact .pure hd.1.later trivial
  · refine .bind (.get hd.1.later) fun e d' hd' _ => ?_
    refine .bind (lift_leads (.ofExcept hd'.1.later _)) fun _ d₁ hd₁ _ => ?_
    exact .bind (lift_leads (.ofExcept hd₁.1.later _)) fun _ d₂ hd₂ _ => .throw hd₂.1.later _

theorem representative_leads (hc : c.Clean N) {m : Monotype} (hm : (c.old N).Holds m) :
    Leads (evolution N) (fun d m => (d.old N).Holds m) (Algebra.representative m) c := by
  refine .bind (.get hc.later) fun d e he hd => ?_
  subst hd
  exact .pure he.1.later (he.1.classes.find_type he.1.acyclic (hm.mono he.2.sub))

theorem applyTypes_leads (hc : c.Clean N) {a b : Monotype} (ha : (c.old N).Holds a)
    (hb : (c.old N).Holds b) :
    Leads (evolution N) (fun d m => (d.old N).Holds m) (Algebra.applyTypes ev a b) c := by
  refine .bind (lift_leads (fresh_leads hc)) fun v d hd hv => ?_
  refine .bind (require_leads ev hd.1 (ha.mono hd.2.sub) (holds_two (hb.mono hd.2.sub) hv)) ?_
  exact fun _ e he _ => representative_leads he.1 (hv.mono he.2.sub)

theorem abstractType_leads (hc : c.Clean N) {m : Monotype} (hm : (c.old N).Holds m) :
    Leads (evolution N) (fun d m => (d.old N).Holds m) (Algebra.abstractType m) c :=
  .bind (lift_leads (fresh_leads hc)) fun _ _ hd hv =>
    .pure hd.1.later (holds_two hv (hm.mono hd.2.sub))

theorem disjoin_leads (hc : c.Clean N) {m : Monotype} (hm : (c.old N).Holds m) :
    Leads (evolution N) (fun d m => (d.old N).Holds m) (Algebra.disjoin m) c :=
  .bind (lift_leads (fresh_leads hc)) fun _ _ hd hv =>
    .pure hd.1.later (holds_two (hm.mono hd.2.sub) hv)

theorem projectBy_leads (hc : c.Clean N) {m : Monotype} (hm : (c.old N).Holds m)
    {part : Monotype → Monotype → Monotype} (hpart : ∀ v w, part v w = v ∨ part v w = w) :
    Leads (evolution N) (fun d m => (d.old N).Holds m) (Algebra.projectBy ev part m) c := by
  refine .bind (lift_leads (fresh_leads hc)) fun v d hd hv => ?_
  refine .bind (lift_leads (fresh_leads hd.1)) fun w e he hw => ?_
  have hv' := hv.mono he.2.sub
  refine .bind (require_leads ev he.1 (hm.mono (hd.2.trans he.2).sub) (holds_two hv' hw)) ?_
  intro _ e' he' _
  refine representative_leads he'.1 ?_
  rcases hpart v w with h | h
  · rw [h]
    exact hv'.mono he'.2.sub
  · rw [h]
    exact hw.mono he'.2.sub

theorem head_leads (hc : c.Clean N) {m : Monotype} (hm : (c.old N).Holds m) :
    Leads (evolution N) (fun d m => (d.old N).Holds m) (Algebra.head ev m) c :=
  projectBy_leads ev hc hm fun _ _ => Or.inl rfl

theorem tail_leads (hc : c.Clean N) {m : Monotype} (hm : (c.old N).Holds m) :
    Leads (evolution N) (fun d m => (d.old N).Holds m) (Algebra.tail ev m) c :=
  projectBy_leads ev hc hm fun _ _ => Or.inr rfl

theorem realize_leads (hc : c.Clean N) {m₁ m₂ m₃ : Monotype} (h₁ : (c.old N).Holds m₁)
    (h₂ : (c.old N).Holds m₂) (h₃ : (c.old N).Holds m₃) :
    Leads (evolution N) (fun d m => (d.old N).Holds m) (Algebra.realize ev m₁ m₂ m₃) c := by
  refine .bind (lift_leads (fresh_leads hc)) fun v c₁ hc₁ hv => ?_
  refine .bind (lift_leads (fresh_leads hc₁.1)) fun w c₂ hc₂ hw => ?_
  refine .bind (lift_leads (fresh_leads hc₂.1)) fun x c₃ hc₃ hx => ?_
  have hbefore : c.Before c₃ := (hc₁.2.trans hc₂.2).trans hc₃.2
  have hv₃ := hv.mono (hc₂.2.trans hc₃.2).sub
  have hw₃ := hw.mono hc₃.2.sub
  refine .bind (require_leads ev hc₃.1 (h₁.mono hbefore.sub) (holds_two hv₃ hw₃)) ?_
  intro _ c₄ hc₄ _
  have hx₄ := hx.mono hc₄.2.sub
  refine .bind (require_leads ev hc₄.1 (h₂.mono (hbefore.trans hc₄.2).sub)
    (holds_two (hv₃.mono hc₄.2.sub) hx₄)) ?_
  intro _ c₅ hc₅ _
  have hx₅ := hx₄.mono hc₅.2.sub
  refine .bind (require_leads ev hc₅.1 (h₃.mono ((hbefore.trans hc₄.2).trans hc₅.2).sub)
    (holds_two (hw₃.mono (hc₄.2.trans hc₅.2).sub) hx₅)) ?_
  exact fun _ c₆ hc₆ _ => representative_leads hc₆.1 (hx₅.mono hc₆.2.sub)

theorem instantiateEach_leads (hc : c.Clean N) {b : Body} (hb : (c.old N).Holds b.indexedBySelf)
    (vars : List TypeVariable) :
    Leads (evolution N) (fun d b => (d.old N).Holds b.indexedBySelf)
      (Algebra.instantiateEach vars b) c := by
  refine .foldlM (fun b v d hd hb => ?_) hc.later hb vars
  exact .bind (lift_leads (fresh_leads hd.1)) fun m e he hm =>
    .pure he.1.later ((hb.mono he.2.sub).instantiate hm)

theorem declare_leads (hc : c.Clean N) {y : Ty} (hy : (c.old N).HoldsTy y) :
    Leads (evolution N) (fun d m => (d.old N).Holds m) (Algebra.declare y) c := by
  unfold Algebra.declare
  split
  · exact .pure hc.later hy.body
  · exact .bind (lift_leads (fresh_leads hc)) fun _ d hd _ =>
      .pure hd.1.later (hy.body.mono hd.2.sub)
  · exact .bind (instantiateEach_leads hc hy.body _) fun _ d hd hb => .pure hd.1.later hb

end Algebra

/-! ## The stack -/

section Stack

variable {α : Type} {want : Ty → Except Refusal α}

theorem takeTop_spec {n : Nat} {stack rest : List Ty} {tops : List α}
    (h : Stack.takeTop want n stack = .ok (tops, rest)) :
    (∀ a ∈ tops, ∃ y ∈ stack, want y = .ok a) ∧ ∀ y ∈ rest, y ∈ stack := by
  unfold Stack.takeTop at h
  split at h
  · cases h
  · obtain ⟨below, hbelow, h⟩ := bind_eq_ok.mp h
    cases h
    refine ⟨fun a ha => ?_, fun y hy => List.mem_of_mem_drop hy⟩
    obtain ⟨y, hy, hwant⟩ := exists_of_mem_right (mapM_eq_ok hbelow) (List.mem_reverse.mp ha)
    exact ⟨y, List.mem_of_mem_take (List.mem_reverse.mp hy), hwant⟩

/-- What is popped was on the stack. -/
theorem popMany_leads (hc : c.Clean N) {good : Region → α → Prop}
    (hwant : ∀ {R : Region} {y : Ty} {a : α}, want y = .ok a → R.HoldsTy y → good R a) (n : Nat) :
    Leads (evolution N) (fun d as => ∀ a ∈ as, good (d.old N) a) (Stack.popMany want n) c := by
  cases htake : Stack.takeTop want n c.stack with
  | error e =>
      have hrun : Stack.popMany want n c = .error e c := by
        unfold Stack.popMany
        rw [Stateful.get_then, htake]
        rfl
      exact .of_error hrun hc.later
  | ok taken =>
      obtain ⟨tops, rest⟩ := taken
      obtain ⟨htops, hrest⟩ := takeTop_spec htake
      have hrun : Stack.popMany want n c = .ok tops { c with stack := rest } := by
        unfold Stack.popMany
        rw [Stateful.get_then, htake]
        rfl
      refine .of_ok hrun (hc.of_known rfl ⟨rfl, Nat.le_refl _⟩ (fun y hy => ?_) hc.bounded) ?_
      · exact hc.stack y (hrest y hy)
      · intro a ha
        obtain ⟨y, hy, hya⟩ := htops a ha
        exact hwant hya (hc.stack y hy)

theorem popOne_leads (hc : c.Clean N) {good : Region → α → Prop}
    (hwant : ∀ {R : Region} {y : Ty} {a : α}, want y = .ok a → R.HoldsTy y → good R a) :
    Leads (evolution N) (fun d a => good (d.old N) a) (Stack.popOne want) c := by
  refine .bind (popMany_leads hc hwant 1) fun tops d hd htops => ?_
  cases tops with
  | nil => exact .throw hd.1.later _
  | cons a as => exact .pure hd.1.later (htops a (by simp))

theorem push_leads (hc : c.Clean N) {y : Ty} (hy : (c.old N).HoldsTy y) :
    Leads (evolution N) (fun _ _ => True) (Stack.push y) c :=
  .of_ok rfl (hc.of_known rfl ⟨rfl, Nat.le_refl _⟩
    (List.forall_mem_cons.mpr ⟨hy, hc.stack⟩) hc.bounded) trivial

theorem holds_of_wantType {R : Region} {y z : Ty} (h : Stack.wantType y = .ok z)
    (hy : R.HoldsTy y) : R.HoldsTy z := by
  cases h
  exact hy

theorem holds_of_wantMonotype {R : Region} {y : Ty} {m : Monotype}
    (h : Stack.wantMonotype y = .ok m) (hy : R.HoldsTy y) : R.Holds m := by
  unfold Stack.wantMonotype at h
  split at h
  · cases h
    exact Region.holdsTy_bare.mp hy
  · cases h

theorem holds_of_wantPolytype {R : Region} {y : Ty} {p : Polytype}
    (h : Stack.wantPolytype y = .ok p) (hy : R.HoldsTy y) : R.HoldsTy (.poly p) := by
  unfold Stack.wantPolytype at h
  split at h
  · cases h
    exact hy
  · cases h

theorem popMonotypes_leads (hc : c.Clean N) (n : Nat) :
    Leads (evolution N) (fun d ms => ∀ m ∈ ms, (d.old N).Holds m) (Stack.popMonotypes n) c :=
  popMany_leads hc holds_of_wantMonotype n

theorem popAsPolytypes_leads (hc : c.Clean N) (n : Nat) :
    Leads (evolution N) (fun d ps => ∀ p ∈ ps, (d.old N).HoldsTy (.poly p))
      (Stack.popAsPolytypes n) c := by
  refine .bind (popMany_leads hc holds_of_wantType n) fun ys d hd hys => .pure hd.1.later ?_
  intro p hp
  obtain ⟨y, hy, rfl⟩ := List.mem_map.mp hp
  exact ⟨(hys y hy).binders, (hys y hy).body⟩

end Stack

/-! ## The built-in rules -/

section Rules

variable (ev : Evaluator)

theorem binary_leads (hc : c.Clean N) {f : Monotype → Monotype → AlgebraM Monotype}
    (hf : ∀ {d : TypeContext} {a b : Monotype}, d.Clean N → (d.old N).Holds a → (d.old N).Holds b →
      Leads (evolution N) (fun e m => (e.old N).Holds m) (f a b) d) :
    Leads (evolution N) (fun d y => (d.old N).HoldsTy y) (Rule.binary f) c := by
  refine .bind (popMonotypes_leads hc 2) fun tops d hd htops => ?_
  split
  · refine .bind (hf hd.1 (htops _ (by simp)) (htops _ (by simp))) fun m e he hm => ?_
    exact .pure he.1.later (Region.holdsTy_mono.mpr hm)
  · exact .throw hd.1.later _

theorem unary_leads (hc : c.Clean N) {f : Monotype → AlgebraM Monotype}
    (hf : ∀ {d : TypeContext} {m : Monotype}, d.Clean N → (d.old N).Holds m →
      Leads (evolution N) (fun e m => (e.old N).Holds m) (f m) d) :
    Leads (evolution N) (fun d y => (d.old N).HoldsTy y) (Rule.unary f) c := by
  refine .bind (popOne_leads hc holds_of_wantMonotype) fun m d hd hm => ?_
  exact .bind (hf hd.1 hm) fun m' e he hm' => .pure he.1.later (Region.holdsTy_mono.mpr hm')

theorem realization_leads (hc : c.Clean N) :
    Leads (evolution N) (fun d y => (d.old N).HoldsTy y) (Rule.realization ev) c := by
  refine .bind (popMonotypes_leads hc 3) fun tops d hd htops => ?_
  split
  · refine .bind (realize_leads ev hd.1 (htops _ (by simp)) (htops _ (by simp))
      (htops _ (by simp))) fun m e he hm => ?_
    exact .pure he.1.later (Region.holdsTy_mono.mpr hm)
  · exact .throw hd.1.later _

theorem contextualization_leads (hc : c.Clean N) :
    Leads (evolution N) (fun d y => (d.old N).HoldsTy y) Rule.contextualization c := by
  refine .bind (popAsPolytypes_leads hc 2) fun tops d hd htops => ?_
  split
  · rename_i q p
    have hq := htops q (by simp)
    exact .pure hd.1.later (Region.holdsTy_toType hq.binders hq.body)
  · exact .throw hd.1.later _

theorem instantiation_leads (hc : c.Clean N) :
    Leads (evolution N) (fun d y => (d.old N).HoldsTy y) Rule.instantiation c := by
  refine .bind (popOne_leads hc holds_of_wantMonotype) fun m d hd hm => ?_
  refine .bind (.tryCatch (popOne_leads hd.1 holds_of_wantPolytype) fun refusal d' hd' => ?_)
    fun p d' hd' hp => .pure hd'.1.later (hp.instantiate (hm.mono hd'.2.sub))
  cases refusal with
  | error e =>
      have hpush := push_leads hd'.1 (Region.holdsTy_mono.mpr (hm.mono hd'.2.sub))
      exact .bind hpush fun _ e' he' _ => .throw he'.1.later _
  | fault f => exact .throw hd'.1.later _

theorem generalization_leads (hc : c.Clean N) :
    Leads (evolution N) (fun d y => (d.old N).HoldsTy y) Rule.generalization c :=
  .bind (popOne_leads hc holds_of_wantType) fun _ d hd hy =>
    .pure hd.1.later (hy.generalize d.old_wildcard)

theorem builtin_leads : ∀ entry ∈ (RuleTable.builtin ev).rules, ∀ c : TypeContext, c.Clean N →
    Leads (evolution N) (fun d y => (d.old N).HoldsTy y) entry.2 c := by
  simp only [RuleTable.builtin, List.forall_mem_cons]
  refine ⟨fun c hc => binary_leads hc fun hd ha hb => applyTypes_leads ev hd ha hb,
    fun c hc => unary_leads hc fun hd hm => abstractType_leads hd hm,
    fun c hc => binary_leads hc fun hd ha hb => .pure hd.later (holds_two ha hb),
    fun c hc => unary_leads hc fun hd hm => head_leads ev hd hm,
    fun c hc => unary_leads hc fun hd hm => tail_leads ev hd hm,
    fun c hc => unary_leads hc fun hd hm => disjoin_leads hd hm,
    fun c hc => binary_leads hc fun hd ha hb => .pure hd.later (holds_two ha hb),
    fun c hc => realization_leads ev hc, fun c hc => contextualization_leads hc,
    fun c hc => instantiation_leads hc, fun c hc => generalization_leads hc, by simp⟩

theorem rule_leads (hc : c.Clean N) (id : Nat) :
    Leads (evolution N) (fun _ _ => True) ((RuleTable.builtin ev).apply id) c := by
  unfold RuleTable.apply
  split
  · rename_i name rule hget
    have hmem : (name, rule) ∈ (RuleTable.builtin ev).rules := List.mem_of_getElem? hget
    exact .bind (builtin_leads ev _ hmem c hc) fun y d hd hy => push_leads hd.1 hy
  · exact .throw hc.later _

theorem ruleNamed_leads (hc : c.Clean N) (name : String) :
    Leads (evolution N) (fun _ _ => True) ((RuleTable.builtin ev).applyNamed name) c := by
  unfold RuleTable.applyNamed
  split
  · exact rule_leads ev hc _
  · exact .throw hc.later _

end Rules

end TypeContext

/-! ## Operations and their answers -/

/-- The data in the value of a computation that has ended well. -/
def answersOf {ε σ α : Type} (data : α → List Datum) : EStateM.Result ε σ α → List Datum
  | .ok a _ => data a
  | .error _ _ => []

/-- The answer of a computation, if there is one, holds in the region of the state it leads to. -/
theorem Leads.holdsData {ε σ α : Type} {E : Evolution σ} {R : σ → Region} {data : α → List Datum}
    {x : EStateM ε σ α} {s : σ} (h : Leads E (fun s' a => (R s').HoldsData (data a)) x s) :
    E.later s (endOf (x s)) ∧ (R (endOf (x s))).HoldsData (answersOf data (x s)) := by
  refine ⟨h.later, ?_⟩
  cases hrun : x s with
  | ok a s' => exact h.good a s' hrun
  | error e s' => exact Region.holdsData_nil

namespace Operation

open TypeContext (Clean evolution)

/-- The types and terms that an operation is given. -/
def arguments : Operation → List Datum
  | unify _ a b => a.data ++ b.data
  | unifyKind _ s t => [.term s, .term t]
  | applyTypes _ a b => a.data ++ b.data
  | abstractType m => m.data
  | head _ m => m.data
  | tail _ m => m.data
  | disjoin m => m.data
  | realize _ a b c => a.data ++ b.data ++ c.data
  | declare y => [.type y]
  | push y => [.type y]
  | _ => []

/-- The types that an operation answers with. -/
def answers (c : TypeContext) : Operation → List Datum
  | fresh => answersOf Monotype.data (TypeContext.fresh c)
  | applyTypes ev a b => answersOf Monotype.data (Algebra.applyTypes ev a b c)
  | abstractType m => answersOf Monotype.data (Algebra.abstractType m c)
  | head ev m => answersOf Monotype.data (Algebra.head ev m c)
  | tail ev m => answersOf Monotype.data (Algebra.tail ev m c)
  | disjoin m => answersOf Monotype.data (Algebra.disjoin m c)
  | realize ev m₁ m₂ m₃ => answersOf Monotype.data (Algebra.realize ev m₁ m₂ m₃ c)
  | declare y => answersOf Monotype.data (Algebra.declare y c)
  | pop => answersOf (fun y => [.type y]) (Stack.pop c)
  | popMonotype => answersOf Monotype.data (Stack.popMonotype c)
  | popPolytype => answersOf (fun p => [.type (.poly p)]) (Stack.popPolytype c)
  | popMonotypes n => answersOf (·.map fun m => .type (.mono m)) (Stack.popMonotypes n c)
  | popAsPolytypes n => answersOf (·.map fun p => .type (.poly p)) (Stack.popAsPolytypes n c)
  | _ => []

variable {N : String → Prop} {c : TypeContext}

theorem holdsData_two {R : Region} {a b : Monotype} (h : R.HoldsData (a.data ++ b.data)) :
    R.Holds a ∧ R.Holds b := by
  obtain ⟨ha, hb⟩ := List.forall_mem_append.mp h
  exact ⟨Region.holdsData_mono.mp ha, Region.holdsData_mono.mp hb⟩

theorem answers_of_leads {ε α : Type} {data : α → List Datum} {x : EStateM ε TypeContext α}
    (h : Leads (evolution N) (fun d a => (d.old N).HoldsData (data a)) x c) :
    (evolution N).later c (endOf (x c)) ∧
      ((endOf (x c)).old N).HoldsData (answersOf data (x c)) := by
  exact h.holdsData

theorem answer_of_leads {ε : Type} {x : EStateM ε TypeContext Monotype}
    (h : Leads (evolution N) (fun d m => (d.old N).Holds m) x c) :
    (evolution N).later c (endOf (x c)) ∧
      ((endOf (x c)).old N).HoldsData (answersOf Monotype.data (x c)) :=
  answers_of_leads (h.imp fun _ _ _ hm => Region.holdsData_mono.mpr hm)

theorem silent_of_leads {ε α : Type} {x : EStateM ε TypeContext α}
    (h : Leads (evolution N) (fun _ _ => True) x c) :
    (evolution N).later c (endOf (x c)) ∧ ((endOf (x c)).old N).HoldsData [] := by
  exact ⟨h.later, Region.holdsData_nil⟩

/-- An operation on old variables leaves a clean context behind, and answers with old variables. -/
theorem run_leads (hc : c.Clean N) (op : Operation) (hargs : (c.old N).HoldsData op.arguments) :
    (evolution N).later c (op.run c) ∧ ((op.run c).old N).HoldsData (op.answers c) := by
  cases op with
  | unify ev a b =>
      obtain ⟨ha, hb⟩ := holdsData_two hargs
      exact silent_of_leads (TypeContext.unify_leads hc _ _ ha hb)
  | unifyKind ev s t =>
      have hs : s.NamedBy N := hargs (.term s) (by simp [arguments])
      have ht : t.NamedBy N := hargs (.term t) (by simp [arguments])
      exact silent_of_leads (TypeContext.unifyKind_leads hc _ _ hs ht)
  | fresh => exact answer_of_leads (TypeContext.fresh_leads hc)
  | applyTypes ev a b =>
      obtain ⟨ha, hb⟩ := holdsData_two hargs
      exact answer_of_leads (TypeContext.applyTypes_leads ev hc ha hb)
  | abstractType m =>
      exact answer_of_leads (TypeContext.abstractType_leads hc (Region.holdsData_mono.mp hargs))
  | head ev m =>
      exact answer_of_leads (TypeContext.head_leads ev hc (Region.holdsData_mono.mp hargs))
  | tail ev m =>
      exact answer_of_leads (TypeContext.tail_leads ev hc (Region.holdsData_mono.mp hargs))
  | disjoin m =>
      exact answer_of_leads (TypeContext.disjoin_leads hc (Region.holdsData_mono.mp hargs))
  | realize ev m₁ m₂ m₃ =>
      obtain ⟨h₁₂, h₃⟩ := List.forall_mem_append.mp hargs
      obtain ⟨h₁, h₂⟩ := holdsData_two h₁₂
      exact answer_of_leads (TypeContext.realize_leads ev hc h₁ h₂ (Region.holdsData_mono.mp h₃))
  | declare y =>
      exact answer_of_leads (TypeContext.declare_leads hc (Region.holdsData_type.mp hargs))
  | push y => exact silent_of_leads (TypeContext.push_leads hc (Region.holdsData_type.mp hargs))
  | pop =>
      have hpop := TypeContext.popOne_leads hc TypeContext.holds_of_wantType
      exact answers_of_leads (hpop.imp fun _ _ _ hy => Region.holdsData_type.mpr hy)
  | popMonotype =>
      exact answer_of_leads (TypeContext.popOne_leads hc TypeContext.holds_of_wantMonotype)
  | popPolytype =>
      have hpop := TypeContext.popOne_leads hc TypeContext.holds_of_wantPolytype
      exact answers_of_leads (hpop.imp fun _ _ _ hp => Region.holdsData_type.mpr hp)
  | popMonotypes n =>
      refine answers_of_leads ((TypeContext.popMonotypes_leads hc n).imp fun d ms _ hms => ?_)
      exact List.forall_mem_map.mpr fun m hm => Region.holdsTy_mono.mpr (hms m hm)
  | popAsPolytypes n =>
      refine answers_of_leads ((TypeContext.popAsPolytypes_leads hc n).imp fun d ps _ hps => ?_)
      exact List.forall_mem_map.mpr hps
  | rule ev id => exact silent_of_leads (TypeContext.rule_leads ev hc id)
  | ruleNamed ev name => exact silent_of_leads (TypeContext.ruleNamed_leads ev hc name)
  | enableTracing | takeTrace =>
      exact ⟨hc.of_known rfl ⟨rfl, Nat.le_refl _⟩ hc.stack hc.bounded, Region.holdsData_nil⟩
  | inherit =>
      have hstack : ∀ y ∈ c.inherit.stack, (c.inherit.old N).HoldsTy y :=
        fun y hy => absurd hy List.not_mem_nil
      exact ⟨hc.of_known rfl ⟨rfl, Nat.le_refl _⟩ hstack hc.bounded, Region.holdsData_nil⟩

end Operation

end IndexedLambda
