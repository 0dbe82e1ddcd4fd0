import IndexedLambda.Proofs.Evaluation.Beta
import IndexedLambda.Proofs.Evaluation.Fuel
/-!
# Applying step by step

An abstraction can be applied in one go, by `Term.apply`, or step by step: `Term.contract` makes the
first step and hands back the flag, and whoever holds the result goes on with `Term.settle`. Both make
the same first step, and both step while the flag is set. They differ in the place where they step. An
application settles the body and then puts the remaining binders back; from outside, the binders are
there already, and a step never looks below a binder.

So the two ways agree for a single binder, and there they are the same computation
(`Term.apply_single`). With more binders, the steps from outside stop at once, whatever the flag says,
and the two agree where the application had nothing to settle. Where they differ, what the steps leave
reduces to what the application gives.
-/

namespace IndexedLambda.Term

variable {natives : InstructionSet}

/-- With one binder, to apply is to contract and to settle what comes out. -/
theorem apply_single {v : Variable} {body arg stepped : Term} {flag : Bool} (harg : arg.Assigned)
    (hstep : contract [v] body arg = .ok (stepped, flag)) (n : Nat) :
    apply natives (n + 1) [v] body arg = settle natives n stepped flag := by
  rw [contract_eq_contractBody] at hstep
  obtain ⟨step, hbody, hstep⟩ := bind_eq_ok.mp hstep
  cases hstep
  rw [apply_eq_contractBody, harg.assignFree_eq_self, hbody]
  exact bind_pure (settle natives n step.1 step.2)

/-- An abstraction has nothing to step on. -/
theorem eq_of_settle_abs {n : Nat} {binders : List Variable} {body t : Term} {flag : Bool}
    (h : settle natives n (.abs binders body) flag = .ok t) : t = .abs binders body := by
  cases n with
  | zero => cases h
  | succ n =>
      rcases settle_eq_ok h with rfl | ⟨u, more, hadvance, hsettle⟩
      · rfl
      · cases n with
        | zero => cases hadvance
        | succ n =>
            cases hadvance
            cases hsettle
            rfl

/-- Below the binders that remain, an application settles what the first step has left there. -/
theorem apply_eq_abs {n : Nat} {v w : Variable} {rest : List Variable} {body arg stepped u : Term}
    {flag : Bool} (harg : arg.Assigned)
    (hstep : contract (v :: w :: rest) body arg = .ok (stepped, flag))
    (happly : apply natives n (v :: w :: rest) body arg = .ok u) :
    ∃ b b' k, stepped = .abs (w :: rest) b ∧ u = .abs (w :: rest) b' ∧
      settle natives k b flag = .ok b' := by
  cases n with
  | zero => cases happly
  | succ n =>
      obtain ⟨v', rest', b, flag', b', hbinders, hcontract, hsettle, rfl⟩ := apply_eq_ok.mp happly
      cases hbinders
      rw [harg.assignFree_eq_self, hstep] at hcontract
      cases hcontract
      exact ⟨b, b', n, rfl, rfl, hsettle⟩

/-- **Stepping from outside agrees with an application** where the binder was the only one. Where binders
remain, it stops with the first step, so it agrees exactly where the body below them is settled; without
instructions, what it gives still reduces to what the application gives. -/
theorem stepwise_eq_apply_iff {v : Variable} {rest : List Variable} {body arg stepped t u : Term}
    {flag : Bool} {m n : Nat} (harg : arg.Assigned)
    (hstep : contract (v :: rest) body arg = .ok (stepped, flag))
    (hsettle : settle natives m stepped flag = .ok t)
    (happly : apply natives n (v :: rest) body arg = .ok u) :
    (rest = [] → t = u) ∧
    (rest ≠ [] → t = stepped ∧
      (t = u ↔ ∃ b k, stepped = .abs rest b ∧ settle natives k b flag = .ok b)) ∧
    ((app (.abs (v :: rest) body) arg).Respects .plain [] → Reduces t u) := by
  cases rest with
  | nil =>
      have hagree : t = u := by
        cases n with
        | zero => cases happly
        | succ n =>
            rw [apply_single harg hstep] at happly
            exact settle_unique hsettle happly
      exact ⟨fun _ => hagree, fun h => absurd rfl h, fun _ => hagree ▸ .refl⟩
  | cons w rest =>
      obtain ⟨b, b', k, rfl, rfl, hbody⟩ := apply_eq_abs harg hstep happly
      obtain rfl := eq_of_settle_abs hsettle
      refine ⟨fun h => (List.cons_ne_nil w rest h).elim, fun _ => ⟨rfl, ?_⟩, fun hplain => ?_⟩
      · constructor
        · intro h
          obtain ⟨-, rfl⟩ := abs.inj h
          exact ⟨b, k, rfl, hbody⟩
        · rintro ⟨b₁, k₁, h, hsettled⟩
          obtain ⟨-, rfl⟩ := abs.inj h
          rw [settle_unique hbody hsettled]
      · obtain ⟨hf, harg⟩ := respects_app.mp hplain
        have hstepped := (evaluable_plain natives).contracted hf harg hstep
        have hreduces := (followsBeta natives k).settle (respects_abs.mp hstepped).2 hbody
        exact hreduces.wrap (w :: rest)

/-- `λx. x c d`, applied to `λy z. y`, takes two more steps to `c`. -/
theorem stepwise_eq_apply_of_spine :
    let natives : InstructionSet := fun _ _ => .fail none
    let body : Term := .app (.app (.var ⟨"x", 1⟩) (.const "c")) (.const "d")
    let arg : Term := .abs [⟨"y", 2⟩, ⟨"z", 1⟩] (.var ⟨"y", 2⟩)
    let stepped : Term := .app (.app arg (.const "c")) (.const "d")
    arg.Assigned ∧ contract [⟨"x", 1⟩] body arg = .ok (stepped, true) ∧
      ∃ t u, settle natives 20 stepped true = .ok t ∧
        apply natives 20 [⟨"x", 1⟩] body arg = .ok u ∧ t = u ∧ u = .const "c" := by
  intro natives body arg stepped
  have harg : arg.Assigned := by decide
  have hstep : contract [⟨"x", 1⟩] body arg = .ok (stepped, true) := by decide +kernel
  have hsettle : settle natives 20 stepped true = .ok (.const "c") := rfl
  have happly : apply natives 20 [⟨"x", 1⟩] body arg = .ok (.const "c") := rfl
  exact ⟨harg, hstep, _, _, hsettle, happly,
    (stepwise_eq_apply_iff harg hstep hsettle happly).1 rfl, rfl⟩

/-- `λx y. x y`, applied to `λz. z`: the flag asks for another step, but the redex stands below `y`, and
only the application contracts it. -/
theorem stepwise_ne_apply :
    let natives : InstructionSet := fun _ _ => .fail none
    let binders : List Variable := [⟨"x", 2⟩, ⟨"y", 1⟩]
    let body : Term := .app (.var ⟨"x", 2⟩) (.var ⟨"y", 1⟩)
    let arg : Term := .abs [⟨"z", 1⟩] (.var ⟨"z", 1⟩)
    let stepped : Term := .abs [⟨"y", 1⟩] (.app arg (.var ⟨"y", 1⟩))
    (app (.abs binders body) arg).WellFormed ∧ arg.Assigned ∧
      contract binders body arg = .ok (stepped, true) ∧
      settle natives 20 stepped true = .ok stepped ∧
      apply natives 20 binders body arg = .ok (.abs [⟨"y", 1⟩] (.var ⟨"y", 1⟩)) := by
  exact ⟨by decide, by decide, by decide +kernel, rfl, rfl⟩

end IndexedLambda.Term
