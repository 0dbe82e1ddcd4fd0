import IndexedLambda.Evaluation.Equality
/-!
# Fuel

Evaluation is bounded: a computation whose bound is reached answers `Fault.outOfFuel`. This module
shows that the bound has no other effect. A computation that was not stopped gives the same answer
under every larger bound (`Term.convertible_mono` for the comparison of terms), so its answer is the
answer, and a computation that is stopped under every bound is one that does not end.

The functions of `Evaluation/Reduction` call each other, so their induction is done once, for all of
them together, in `Term.fuelStep`.
-/

namespace IndexedLambda

/-- The first computation was stopped, or both give the same. -/
def Approximates {α : Type} (x y : Except Fault α) : Prop := x = .error .outOfFuel ∨ x = y

namespace Approximates

variable {α β : Type}

theorem refl (x : Except Fault α) : Approximates x x := Or.inr rfl

theorem stopped (y : Except Fault α) : Approximates (.error .outOfFuel) y := Or.inl rfl

theorem trans {x y z : Except Fault α} (hxy : Approximates x y) (hyz : Approximates y z) :
    Approximates x z := by
  rcases hxy with h | rfl
  · exact Or.inl h
  · exact hyz

/-- An answer of the first is the answer of the second. -/
theorem ok {x y : Except Fault α} {a : α} (h : Approximates x y) (hx : x = .ok a) : y = .ok a := by
  rcases h with h | rfl
  · rw [h] at hx
    cases hx
  · exact hx

theorem of_le {f : Nat → Except Fault α} (hstep : ∀ n, Approximates (f n) (f (n + 1))) {n m : Nat}
    (hnm : n ≤ m) : Approximates (f n) (f m) := by
  induction hnm with
  | refl => exact refl _
  | step _ ih => exact ih.trans (hstep _)

/-- Two bounds that both suffice give the same answer. -/
theorem unique {f : Nat → Except Fault α} (hstep : ∀ n, Approximates (f n) (f (n + 1))) {n m : Nat}
    {a b : α} (hn : f n = .ok a) (hm : f m = .ok b) : a = b := by
  have ha := (of_le hstep (Nat.le_max_left n m)).ok hn
  have hb := (of_le hstep (Nat.le_max_right n m)).ok hm
  exact Except.ok.inj (ha.symm.trans hb)

theorem bind {x y : Except Fault α} {f g : α → Except Fault β} (hxy : Approximates x y)
    (hfg : ∀ a, Approximates (f a) (g a)) : Approximates (x >>= f) (y >>= g) := by
  rcases hxy with rfl | rfl
  · exact stopped _
  · cases x with
    | error e => exact refl _
    | ok a => exact hfg a

theorem recover {x y : Except Fault Term} (h : Approximates x y) :
    Approximates (recover x) (recover y) := by
  rcases h with rfl | rfl
  · exact stopped _
  · exact refl _

theorem mapM {f g : α → Except Fault β} (h : ∀ a, Approximates (f a) (g a)) (as : List α) :
    Approximates (as.mapM f) (as.mapM g) := by
  induction as with
  | nil => exact refl _
  | cons a as ih =>
      rw [List.mapM_cons, List.mapM_cons]
      exact .bind (h a) fun _ => .bind ih fun _ => refl _

theorem run {f g : Term → Except Fault Term} (h : ∀ t, Approximates (f t) (g t))
    (action : Action) : Approximates (action.run f) (action.run g) := by
  induction action with
  | answer result => exact refl _
  | fail text => exact refl _
  | force subject next ih => exact .bind (h subject) fun t => ih t

end Approximates

namespace Term

variable {natives : InstructionSet}

/-! ## Reduction -/

/-- With one more unit of fuel, no function of reduction changes an answer that was not cut short. -/
structure FuelStep (natives : InstructionSet) (n : Nat) : Prop where
  force : ∀ t, Approximates (force natives n t) (force natives (n + 1) t)
  feed : ∀ t arg, Approximates (feed natives n t arg) (feed natives (n + 1) t arg)
  feedInstr : ∀ head args arg,
    Approximates (feedInstr natives n head args arg) (feedInstr natives (n + 1) head args arg)
  call : ∀ head args, Approximates (call natives n head args) (call natives (n + 1) head args)
  apply : ∀ binders body arg,
    Approximates (apply natives n binders body arg) (apply natives (n + 1) binders body arg)
  settle : ∀ t more, Approximates (settle natives n t more) (settle natives (n + 1) t more)
  advance : ∀ t, Approximates (advance natives n t) (advance natives (n + 1) t)

theorem fuelStep_zero : FuelStep natives 0 where
  force t := by rw [Term.force]; exact .stopped _
  feed t arg := by rw [Term.feed]; exact .stopped _
  feedInstr head args arg := by rw [Term.feedInstr]; exact .stopped _
  call head args := by rw [Term.call]; exact .stopped _
  apply binders body arg := by rw [Term.apply]; exact .stopped _
  settle t more := by rw [Term.settle]; exact .stopped _
  advance t := by rw [Term.advance]; exact .stopped _

section Step

variable {n : Nat} (ih : FuelStep natives n)

include ih

theorem FuelStep.force_succ (t : Term) :
    Approximates (Term.force natives (n + 1) t) (Term.force natives (n + 2) t) := by
  cases t with
  | app l r =>
      rw [Term.force, Term.force]
      refine .bind (ih.force l) fun operator => ?_
      split
      · exact ih.feed operator r
      · exact .refl _
  | instr head args =>
      rw [Term.force, Term.force]
      split
      · exact ih.call head args
      · exact .refl _
  | define form x a b =>
      rw [Term.force, Term.force]
      exact .bind (ih.force a) fun _ => .bind (ih.force b) fun _ => .refl _
  | recur defs b =>
      rw [Term.force, Term.force]
      refine .bind (.mapM (fun d => .bind (ih.force d.2) fun _ => .refl _) defs) fun _ => ?_
      exact .bind (ih.force b) fun _ => .refl _
  | _ => exact .refl _

theorem FuelStep.feed_succ (t arg : Term) :
    Approximates (Term.feed natives (n + 1) t arg) (Term.feed natives (n + 2) t arg) := by
  cases t with
  | abs binders body =>
      rw [Term.feed, Term.feed]
      exact ih.apply binders body arg
  | instr head args =>
      rw [Term.feed, Term.feed]
      exact ih.feedInstr head args arg
  | _ => exact .refl _

theorem FuelStep.feedInstr_succ (head : InstructionHead) (args : List Term) (arg : Term) :
    Approximates (Term.feedInstr natives (n + 1) head args arg)
      (Term.feedInstr natives (n + 2) head args arg) := by
  rw [Term.feedInstr, Term.feedInstr]
  split
  · exact .bind (ih.call head args) fun result => ih.force (.app result arg)
  · split
    · split
      · exact ih.call head (args ++ [arg])
      · exact .refl _
    · exact .refl _

theorem FuelStep.call_succ (head : InstructionHead) (args : List Term) :
    Approximates (Term.call natives (n + 1) head args) (Term.call natives (n + 2) head args) := by
  rw [Term.call, Term.call]
  exact .recover (.run ih.force _)

theorem FuelStep.apply_succ (binders : List Variable) (body arg : Term) :
    Approximates (Term.apply natives (n + 1) binders body arg)
      (Term.apply natives (n + 2) binders body arg) := by
  cases binders with
  | nil => exact .refl _
  | cons v rest =>
      rw [Term.apply, Term.apply]
      -- shifting and replacing take no fuel
      refine .bind (.refl _) fun shifted => .bind (.refl _) fun inserted => ?_
      exact .bind (.refl _) fun result => .bind (ih.settle _ _) fun _ => .refl _

theorem FuelStep.settle_succ (t : Term) (more : Bool) :
    Approximates (Term.settle natives (n + 1) t more) (Term.settle natives (n + 2) t more) := by
  cases more with
  | false => exact .refl _
  | true =>
      rw [Term.settle, Term.settle]
      exact .bind (ih.advance t) fun step => ih.settle step.1 step.2

theorem FuelStep.advance_succ (t : Term) :
    Approximates (Term.advance natives (n + 1) t) (Term.advance natives (n + 2) t) := by
  cases t with
  | app l r =>
      rw [Term.advance, Term.advance]
      refine .bind (ih.advance l) fun step => ?_
      obtain ⟨operator, more⟩ := step
      cases more with
      | true => exact .refl _
      | false =>
          cases operator with
          | instr head args => exact .bind (ih.feedInstr head args r) fun _ => .refl _
          | _ => exact .refl _
  | instr head args =>
      rw [Term.advance, Term.advance]
      split
      · exact .bind (ih.call head args) fun _ => .refl _
      · exact .refl _
  | _ => exact .refl _

end Step

theorem fuelStep (n : Nat) : FuelStep natives n := by
  induction n with
  | zero => exact fuelStep_zero
  | succ n ih =>
      exact ⟨ih.force_succ, ih.feed_succ, ih.feedInstr_succ, ih.call_succ, ih.apply_succ,
        ih.settle_succ, ih.advance_succ⟩

theorem force_unique {n m : Nat} {t t' t'' : Term} (h : force natives n t = .ok t')
    (h' : force natives m t = .ok t'') : t' = t'' :=
  Approximates.unique (f := fun n => force natives n t) (fun n => (fuelStep n).force t) h h'

theorem apply_unique {n m : Nat} {binders : List Variable} {body arg t t' : Term}
    (h : apply natives n binders body arg = .ok t) (h' : apply natives m binders body arg = .ok t') :
    t = t' :=
  Approximates.unique (f := fun n => apply natives n binders body arg)
    (fun n => (fuelStep n).apply binders body arg) h h'

theorem apply_mono {n m : Nat} (hnm : n ≤ m) (binders : List Variable) (body arg : Term) :
    Approximates (apply natives n binders body arg) (apply natives m binders body arg) :=
  .of_le (f := fun n => apply natives n binders body arg)
    (fun n => (fuelStep n).apply binders body arg) hnm

theorem settle_unique {n m : Nat} {t t' t'' : Term} {more : Bool}
    (h : settle natives n t more = .ok t') (h' : settle natives m t more = .ok t'') : t' = t'' :=
  Approximates.unique (f := fun n => settle natives n t more) (fun n => (fuelStep n).settle t more) h h'

/-! ## Comparison -/

theorem saturate_step (placeholder : Variable) (n : Nat) (binders : List Variable) (body : Term) :
    Approximates (saturate natives placeholder n binders body)
      (saturate natives placeholder (n + 1) binders body) := by
  induction n generalizing binders body with
  | zero => exact .stopped _
  | succ n ih =>
      rw [saturate, saturate]
      refine .bind ((fuelStep n).apply binders body _) fun t => ?_
      cases t with
      | abs binders' body' => exact ih binders' body'
      | _ => exact .refl _

theorem allPairs_step {α : Type} {compare compare' : α → α → Except Fault Bool}
    (h : ∀ a b, Approximates (compare a b) (compare' a b)) (as bs : List α) :
    Approximates (allPairs compare as bs) (allPairs compare' as bs) := by
  induction as generalizing bs with
  | nil => cases bs <;> exact .refl _
  | cons a as ih =>
      cases bs with
      | nil => exact .refl _
      | cons b bs =>
          refine .bind (h a b) fun same => ?_
          cases same with
          | false => exact .refl _
          | true => exact ih bs

theorem allPaired_step {α : Type} {compare compare' : α → α → Except Fault Bool}
    (h : ∀ a b, Approximates (compare a b) (compare' a b)) (as bs : List α) :
    Approximates (allPaired compare as bs) (allPaired compare' as bs) := by
  unfold allPaired
  split
  · exact allPairs_step h as bs
  · exact .refl _

theorem convertible_step (n : Nat) (t u : Term) :
    Approximates (convertible natives n t u) (convertible natives (n + 1) t u) := by
  induction n generalizing t u with
  | zero => exact .stopped _
  | succ n ih =>
      have hboth : ∀ a b a' b', Approximates
          (do if ← convertible natives n a b then convertible natives n a' b' else return false)
          (do if ← convertible natives (n + 1) a b then convertible natives (n + 1) a' b'
              else return false) := by
        intro a b a' b'
        refine .bind (ih a b) fun same => ?_
        cases same with
        | false => exact .refl _
        | true => exact ih a' b'
      rw [convertible, convertible]
      refine .bind ((fuelStep n).force t) fun t' => .bind ((fuelStep n).force u) fun u' => ?_
      split
      · exact .bind (saturate_step _ n _ _) fun _ => .bind (saturate_step _ n _ _) fun _ => ih _ _
      · exact hboth _ _ _ _
      · exact allPaired_step ih _ _
      · split
        · exact allPaired_step ih _ _
        · exact .refl _
      · split
        · exact .refl _
        · exact hboth _ _ _ _
      · refine .bind (allPaired_step (fun d e => ?_) _ _) fun same => ?_
        · split
          · exact ih _ _
          · exact .refl _
        · split
          · exact ih _ _
          · exact .refl _
      · exact .refl _

/-- A comparison that was not stopped gives its answer under every larger bound. -/
theorem convertible_mono {n m : Nat} (hnm : n ≤ m) (t u : Term) :
    Approximates (convertible natives n t u) (convertible natives m t u) :=
  .of_le (fun n => convertible_step n t u) hnm

end Term

end IndexedLambda
