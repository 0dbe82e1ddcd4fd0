import IndexedLambda.Proofs.Evaluation.Run
/-!
# Rewritings that evaluation commutes with

A rewriting of the occurrences in a term can be carried out before the term is evaluated or after. On
terms without instructions the two give the same as soon as the rewriting commutes with one step
(`Commutes`): it puts only atoms in the place of occurrences, so that no redex comes or goes, it may be
carried out before an argument goes in or after, and it does not interfere with the preparation of
arguments. `Commutes.transports` is the induction over the evaluator. The evaluator settles below the
binders that remain, so a rewriting is told how many binders lie around the place.

Both evaluations use the same fuel, so the second one ends when the first does. Whether it gives a result
is left to a verdict: a rewriting that enlarges depths can make them too large.
-/

namespace IndexedLambda

/-- Whenever the first computation gives a value, the verdict says of the second that it gives the image
of it. -/
def Verdict.Mirrors (verdict : Verdict) {α β : Type} (f : α → β) (x : Except Fault α)
    (y : Except Fault β) : Prop :=
  ∀ a, x = .ok a → verdict.Holds y (f a)

namespace Verdict.Mirrors

variable {verdict : Verdict} {α α' β β' : Type}

theorem ok {f : α → β} {a : α} {b : β} (h : b = f a) : verdict.Mirrors f (.ok a) (.ok b) := by
  intro a' ha
  cases ha
  rw [h]
  exact verdict.ok _

theorem fault {f : α → β} {e : Fault} {y : Except Fault β} : verdict.Mirrors f (.error e) y := by
  intro a ha
  cases ha

theorem bind {f : α → β} {g : α' → β'} {x : Except Fault α} {y : Except Fault β}
    {next : α → Except Fault α'} {next' : β → Except Fault β'} (hx : verdict.Mirrors f x y)
    (hnext : ∀ a, x = .ok a → verdict.Mirrors g (next a) (next' (f a))) :
    verdict.Mirrors g (x >>= next) (y >>= next') := by
  intro b h
  obtain ⟨a, ha, hb⟩ := bind_eq_ok.mp h
  exact verdict.bind (hx a ha) (hnext a ha b hb)

theorem mapM {f : α → β} {g : α' → β'} {step : α → Except Fault α'} {step' : β → Except Fault β'}
    {as : List α} (h : ∀ a ∈ as, verdict.Mirrors g (step a) (step' (f a))) :
    verdict.Mirrors (List.map g) (as.mapM step) ((as.map f).mapM step') := by
  induction as with
  | nil => exact .ok rfl
  | cons a as ih =>
      rw [List.map_cons, List.mapM_cons, List.mapM_cons]
      exact .bind (h a (by simp)) fun _ _ => .bind (ih fun b hb => h b (by simp [hb])) fun _ _ =>
        .ok rfl

end Verdict.Mirrors

namespace Term

variable {natives : InstructionSet} {n : Nat}

/-- A variable or a constant. -/
inductive Atomic : Term → Prop
  | var (v : Variable) : Atomic (.var v)
  | const (c : String) : Atomic (.const c)

namespace Atomic

variable {t : Term} (ht : t.Atomic)

include ht

theorem isApplicable_eq_false : t.isApplicable = false := by
  cases ht <;> rfl

theorem force_eq : force natives (n + 1) t = .ok t := by
  cases ht <;> rfl

theorem feed_eq (arg : Term) : feed natives (n + 1) t arg = .ok (.app t arg) := by
  cases ht <;> rfl

theorem advance_eq : advance natives (n + 1) t = .ok (t, false) := by
  cases ht <;> rfl

end Atomic

theorem isApplicable_rewrite {visit : Nat → Variable → Term} (h : ∀ i v, (visit i v).Atomic)
    (t : Term) (i : Nat) : (t.rewrite visit i).isApplicable = t.isApplicable := by
  cases t with
  | var v =>
      rw [rewrite_var]
      exact (h i v).isApplicable_eq_false
  | _ => simp [isApplicable]

/-- A rewriting by atoms that can change places with a step, and with the preparation of an argument. -/
structure Commutes (natives : InstructionSet) (step : Discipline) (outside : List String → Prop)
    (verdict : Verdict) (visit : Nat → Variable → Term) : Prop where
  evaluable : Evaluable natives step (fun d scope => d = step ∧ outside scope)
  free : ∀ {head k}, ¬ step.arguments head k
  atomic : ∀ i v, (visit i v).Atomic
  contract : ∀ {scope v rest} {body arg : Term}, (abs (v :: rest) body).Respects step scope →
    arg.Respects step scope → verdict.Mirrors
      (fun p => (p.1.rewrite visit (scope.length + rest.length), p.2))
      (contractBody v rest.length body arg)
      (contractBody v rest.length (body.rewrite visit (scope.length + (rest.length + 1)))
        (arg.rewrite visit scope.length))
  prepare : ∀ {scope} {arg : Term}, outside scope → arg.Respects step scope →
    (arg.rewrite visit scope.length).assignFree = arg.assignFree.rewrite visit scope.length

/-- With the given fuel, the functions of reduction give the rewritten result on rewritten terms. -/
structure Transports (natives : InstructionSet) (step : Discipline) (outside : List String → Prop)
    (verdict : Verdict) (visit : Nat → Variable → Term) (n : Nat) : Prop where
  force : ∀ {scope} {t : Term}, outside scope → t.Respects step scope →
    verdict.Mirrors (rewrite visit scope.length) (force natives n t)
      (force natives n (t.rewrite visit scope.length))
  feed : ∀ {scope} {t arg : Term}, outside scope → t.Respects step scope → arg.Respects step scope →
    verdict.Mirrors (rewrite visit scope.length) (feed natives n t arg)
      (feed natives n (t.rewrite visit scope.length) (arg.rewrite visit scope.length))
  apply : ∀ {scope binders body} {arg : Term}, outside scope → (abs binders body).Respects step scope →
    arg.Respects step scope → verdict.Mirrors (rewrite visit scope.length)
      (apply natives n binders body arg)
      (apply natives n binders (body.rewrite visit (scope.length + binders.length))
        (arg.rewrite visit scope.length))
  settle : ∀ {scope} {t : Term} (flag : Bool), t.Respects step scope →
    verdict.Mirrors (rewrite visit scope.length) (settle natives n t flag)
      (settle natives n (t.rewrite visit scope.length) flag)
  advance : ∀ {scope} {t : Term}, t.Respects step scope →
    verdict.Mirrors (fun p => (p.1.rewrite visit scope.length, p.2)) (advance natives n t)
      (advance natives n (t.rewrite visit scope.length))

variable {step : Discipline} {outside : List String → Prop} {verdict : Verdict}
  {visit : Nat → Variable → Term} {scope : List String}

/-- A step with the remaining binders around it. -/
theorem Commutes.contract_all (h : Commutes natives step outside verdict visit)
    {binders : List Variable} {body arg : Term} (hf : (abs binders body).Respects step scope)
    (harg : arg.Respects step scope) :
    verdict.Mirrors (fun p => (p.1.rewrite visit scope.length, p.2)) (Term.contract binders body arg)
      (Term.contract binders (body.rewrite visit (scope.length + binders.length))
        (arg.rewrite visit scope.length)) := by
  cases binders with
  | nil => exact .fault
  | cons v rest =>
      rw [contract_eq_contractBody, contract_eq_contractBody]
      refine .bind (h.contract hf harg) fun p _ => .ok ?_
      rw [rewrite_wrap]

namespace Transports

variable (h : Commutes natives step outside verdict visit)
  (ih : Transports natives step outside verdict visit n)

include h

theorem not_instr {head : InstructionHead} {args : List Term} :
    ¬ (instr head args).Respects step scope :=
  fun ht => h.free (respects_instr.mp ht).1

include ih

theorem force_succ {t : Term} (hout : outside scope) (ht : t.Respects step scope) :
    verdict.Mirrors (rewrite visit scope.length) (Term.force natives (n + 1) t)
      (Term.force natives (n + 1) (t.rewrite visit scope.length)) := by
  cases t with
  | var v =>
      rw [rewrite_var, (h.atomic _ v).force_eq]
      exact .ok (rewrite_var v).symm
  | instr head args => exact absurd ht (not_instr h)
  | app l r =>
      obtain ⟨hl, hr⟩ := respects_app.mp ht
      rw [rewrite_app, Term.force, Term.force]
      refine .bind (ih.force hout hl) fun operator hoperator => ?_
      rw [isApplicable_rewrite h.atomic]
      split
      · exact ih.feed hout ((h.evaluable.preserves n).force ⟨rfl, hout⟩ hl hoperator) hr
      · exact .ok (rewrite_app _ _).symm
  | define form x a b =>
      obtain ⟨ha, hb⟩ := respects_define.mp ht
      rw [rewrite_define, Term.force, Term.force]
      exact .bind (ih.force hout ha) fun _ _ => .bind (ih.force hout hb) fun _ _ =>
        .ok (rewrite_define _ _ _ _).symm
  | recur defs b =>
      obtain ⟨-, hdefs, hb⟩ := respects_recur.mp ht
      rw [rewrite_recur, Term.force, Term.force]
      refine .bind (.mapM (g := fun p => (p.1, p.2.rewrite visit scope.length)) fun p hp => ?_)
        fun _ _ => ?_
      · exact .bind (ih.force hout (hdefs p hp)) fun _ _ => .ok rfl
      · exact .bind (ih.force hout hb) fun _ _ => .ok (rewrite_recur _ _).symm
  | _ => exact .ok (by simp)

theorem feed_succ {t arg : Term} (hout : outside scope) (ht : t.Respects step scope)
    (harg : arg.Respects step scope) :
    verdict.Mirrors (rewrite visit scope.length) (Term.feed natives (n + 1) t arg)
      (Term.feed natives (n + 1) (t.rewrite visit scope.length) (arg.rewrite visit scope.length)) := by
  cases t with
  | var v =>
      rw [rewrite_var, (h.atomic _ v).feed_eq]
      exact .ok (by rw [rewrite_app, rewrite_var])
  | abs binders body =>
      rw [rewrite_abs, Term.feed, Term.feed]
      exact ih.apply hout ht harg
  | instr head args => exact absurd ht (not_instr h)
  | _ => exact .ok (by simp)

theorem apply_succ {binders : List Variable} {body arg : Term} (hout : outside scope)
    (hf : (abs binders body).Respects step scope) (harg : arg.Respects step scope) :
    verdict.Mirrors (rewrite visit scope.length) (Term.apply natives (n + 1) binders body arg)
      (Term.apply natives (n + 1) binders (body.rewrite visit (scope.length + binders.length))
        (arg.rewrite visit scope.length)) := by
  cases binders with
  | nil => exact .fault
  | cons v rest =>
      have hprepared := h.evaluable.argument ⟨rfl, hout⟩ harg
      rw [apply_eq_contractBody, apply_eq_contractBody, h.prepare hout harg]
      refine .bind (h.contract hf hprepared) fun p hp => ?_
      -- what the step has given lies below the remaining binders
      have hp' : Term.contract (v :: rest) body arg.assignFree = .ok (wrap rest p.1, p.2) := by
        rw [contract_eq_contractBody]
        exact bind_eq_ok.mpr ⟨p, hp, rfl⟩
      have hresult := (respects_wrap.mp (h.evaluable.contracted hf hprepared hp')).2
      have hsettle := ih.settle p.2 hresult
      rw [length_under] at hsettle
      exact .bind hsettle fun settled _ => .ok (rewrite_wrap rest settled).symm

theorem settle_succ {t : Term} (flag : Bool) (ht : t.Respects step scope) :
    verdict.Mirrors (rewrite visit scope.length) (Term.settle natives (n + 1) t flag)
      (Term.settle natives (n + 1) (t.rewrite visit scope.length) flag) := by
  cases flag with
  | false => exact .ok rfl
  | true =>
      rw [Term.settle, Term.settle]
      refine .bind (ih.advance ht) fun p hp => ?_
      exact ih.settle p.2 ((h.evaluable.preserves n).advance ht hp)

theorem advance_succ {t : Term} (ht : t.Respects step scope) :
    verdict.Mirrors (fun p => (p.1.rewrite visit scope.length, p.2)) (Term.advance natives (n + 1) t)
      (Term.advance natives (n + 1) (t.rewrite visit scope.length)) := by
  cases t with
  | var v =>
      rw [rewrite_var, (h.atomic _ v).advance_eq]
      exact .ok (by rw [rewrite_var])
  | instr head args => exact absurd ht (not_instr h)
  | app l r =>
      obtain ⟨hl, hr⟩ := respects_app.mp ht
      rw [rewrite_app, Term.advance, Term.advance]
      refine .bind (ih.advance hl) fun p hp => ?_
      obtain ⟨operator, more⟩ := p
      have hoperator := (h.evaluable.preserves n).advance hl hp
      cases more with
      | true => exact .ok (by simp)
      | false =>
          cases operator with
          | abs binders body =>
              dsimp only
              rw [rewrite_abs]
              exact h.contract_all hoperator hr
          | instr head args => exact absurd hoperator (not_instr h)
          | var v =>
              -- a variable or a constant takes no argument
              dsimp only
              rw [rewrite_var]
              have hatom := h.atomic scope.length v
              generalize hw : visit scope.length v = w at hatom
              cases hatom <;> exact .ok (by rw [rewrite_app, rewrite_var, hw])
          | _ => exact .ok (by simp)
  | _ => exact .ok (by simp)

end Transports

/-- **Evaluation commutes with every rewriting** that commutes with one step. -/
theorem Commutes.transports (h : Commutes natives step outside verdict visit) (n : Nat) :
    Transports natives step outside verdict visit n := by
  induction n with
  | zero =>
      exact ⟨fun _ _ => .fault, fun _ _ _ => .fault, fun _ _ _ => .fault, fun _ _ => .fault,
        fun _ => .fault⟩
  | succ n ih =>
      exact ⟨ih.force_succ h, ih.feed_succ h, ih.apply_succ h, ih.settle_succ h, ih.advance_succ h⟩

end Term

end IndexedLambda
