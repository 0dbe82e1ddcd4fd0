import IndexedLambda.Proofs.Evaluation.Beta
import IndexedLambda.Proofs.Evaluation.Transport
import IndexedLambda.Proofs.Term.Composition
/-!
# Evaluation commutes with weakening

A term moves below further binders when the depths above a threshold are raised. It may be evaluated
before or after: forcing, application and a single step give the raised result on raised terms, the step
with the same flag. This is no more than that raising commutes with one step (`commutes_raising`), for
which substitutions compose: raising is a substitution of variables for variables, and so is putting an
argument in the place of a binder.

The flag of a step comes from the walk that replaces a variable by name and depth, before anything is
lowered. It depends on which occurrences are hit and on whether the argument takes arguments
(`exposes_rewrite`), and raising changes neither: an occurrence that points to the binder lies below the
threshold.

Depths are words, so a raised term can overflow where the term itself does not. The statements are about
computations that stay in range.
-/

namespace IndexedLambda

namespace Term

variable {natives : InstructionSet} {threshold delta n : Nat} {scope : List String}

/-- Raises the depths above a threshold, under any number of binders. -/
def raising (threshold delta : Nat) : Nat → Variable → Term :=
  substFreeAt fun v => .var (v.raiseAbove threshold delta)

theorem raising_eq (i : Nat) (v : Variable) :
    raising threshold delta i v = .var (v.raiseAbove (threshold + i) delta) :=
  (var_raiseAbove_eq_substFreeAt threshold delta i v).symm

theorem raising_atomic (i : Nat) (v : Variable) : (raising threshold delta i v).Atomic := by
  rw [raising_eq]
  exact .var _

theorem isApplicable_raise (m : Nat) (t : Term) : (t.raise m).isApplicable = t.isApplicable :=
  isApplicable_rewrite (fun _ _ => .var _) t 0

/-- Raised occurrences are free, so what may stand where is not affected. -/
theorem Respects.raising (threshold delta : Nat) {t : Term} (ht : t.Respects .plain scope) :
    (t.rewrite (raising threshold delta) scope.length).Respects .plain scope := by
  have hcarries : Carries (Term.raising threshold delta) .plain .plain [] [] := by
    refine ⟨fun inner v hv => ?_, fun _ _ h => h, fun _ _ h => h, fun _ h => h⟩
    obtain ⟨⟨hpoints, hsize⟩, hfree, hassigned⟩ := hv
    rw [raising_eq, respects_var]
    by_cases hle : v.depth ≤ threshold + inner.length
    · rw [Variable.raiseAbove_of_le hle]
      exact ⟨⟨hpoints, hsize⟩, hfree, hassigned⟩
    · rw [Variable.raiseAbove_of_lt (by omega)]
      refine ⟨⟨fun _ hbound => ?_, hsize⟩, hfree, Nat.ne_of_gt (by dsimp only; omega)⟩
      rw [List.append_nil] at hbound
      dsimp only at hbound
      omega
  have hinner : t.Respects .plain (scope ++ []) := by rwa [List.append_nil]
  have hraised := hinner.rewrite_within scope hcarries
  rwa [List.append_nil] at hraised

/-! ## The flag -/

/-- Whether a redex comes up depends on the occurrences that something applicable is put in for, not on
which variables they are. -/
theorem exposes_rewrite {f g : Nat → Variable → Term} (move : Nat → Variable → Variable)
    (hfg : ∀ j v, (g j v).isApplicable = (f j v).isApplicable) (t : Term) (j : Nat) :
    exposes (t.rewrite (fun j v => .var (move j v)) j) (t.rewrite g j) =
      exposes t (t.rewrite f j) := by
  induction t using induction_on generalizing j with
  | abs binders body ih => simpa [exposes] using ih _
  | app l r ihl _ =>
      have hoperator : (l.rewrite g j).isApplicable = (l.rewrite f j).isApplicable := by
        cases l with
        | var v => rw [rewrite_var, rewrite_var, hfg]
        | _ => simp [isApplicable]
      simp [exposes, ihl, hoperator]
  | _ => simp [exposes]

/-- The occurrences that point to the outermost binder are hit after raising just as before. -/
theorem isApplicable_replacing_raiseAbove {x : Variable} {arg arg' : Term} {m j : Nat}
    (hx : x.depth ≤ m) (harg : arg'.isApplicable = arg.isApplicable) (v : Variable) :
    (replacing x arg' j (v.raiseAbove (threshold + (m + j)) delta)).isApplicable =
      (replacing x arg j v).isApplicable := by
  have hdepth : (x.raiseAbove 0 j).depth ≤ m + j :=
    Nat.le_trans (x.depth_raiseAbove_le 0 j) (Nat.add_le_add_right hx j)
  unfold replacing
  by_cases hv : v = x.raiseAbove 0 j
  · rw [hv, Variable.raiseAbove_of_le (by omega), if_pos rfl, if_pos rfl, isApplicable_raise,
      isApplicable_raise, harg]
  · have hv' : v.raiseAbove (threshold + (m + j)) delta ≠ x.raiseAbove 0 j := by
      by_cases hle : v.depth ≤ threshold + (m + j)
      · rwa [Variable.raiseAbove_of_le hle]
      · -- an occurrence that is raised was too deep, and now is deeper still
        intro hsame
        rw [← hsame, Variable.raiseAbove_of_lt (by omega)] at hdepth
        dsimp only at hdepth
        omega
    rw [if_neg hv, if_neg hv']
    rfl

theorem exposes_raising {x : Variable} {arg arg' : Term} {m : Nat} (hx : x.depth ≤ m)
    (harg : arg'.isApplicable = arg.isApplicable) (body : Term) :
    exposes (body.rewrite (raising threshold delta) m)
        ((body.rewrite (raising threshold delta) m).rewrite (replacing x arg') 0) =
      exposes body (body.rewrite (replacing x arg) 0) := by
  have hbody : body.rewrite (raising threshold delta) m =
      body.rewrite (fun j v => .var (v.raiseAbove (threshold + (m + j)) delta)) 0 := by
    have hadd : body.rewrite (raising threshold delta) m =
        body.rewrite (fun j v => raising threshold delta (m + j) v) 0 :=
      rewrite_add (i := m) (j := 0) body
    simpa only [raising_eq] using hadd
  rw [hbody, rewrite_rewrite]
  simp only [rewrite_var]
  exact exposes_rewrite _ (fun j v => isApplicable_replacing_raiseAbove hx harg v) body 0

/-! ## The step -/

/-- Raising may be carried out before an argument goes in or after. -/
theorem instantiate_raising (body arg : Term) (i k : Nat) :
    (body.instantiate k arg).rewrite (raising threshold delta) (i + k) =
      (body.rewrite (raising threshold delta) (i + (k + 1))).instantiate k
        (arg.rewrite (raising threshold delta) i) := by
  rw [Nat.add_comm k 1, ← Nat.add_assoc]
  exact instantiate_substFreeAt body arg i k

theorem commutes_raising (natives : InstructionSet) (threshold delta : Nat) :
    Commutes natives .plain (fun _ => True) .unlessOverflow (raising threshold delta) where
  evaluable := evaluable_plain natives
  free h := h.2.1
  atomic := raising_atomic
  contract {scope x rest body arg} hf harg := by
    intro step hstep
    have hsound := (respects_and.mp hf).1
    have hdepth : x.depth ≤ scope.length + (rest.length + 1) := by
      rw [numbered_head (respects_abs.mp hsound).1.1]
      omega
    have hraised := hf.raising threshold delta
    rw [rewrite_abs] at hraised
    obtain rfl := Verdict.atMost_of_unlessOverflow (contractBody_unlessOverflow hsound arg) step hstep
    have hstep' := contractBody_unlessOverflow (respects_and.mp hraised).1
      (arg.rewrite (raising threshold delta) scope.length)
    have happlicable : ((arg.rewrite (raising threshold delta) scope.length).raise
        (rest.length + 1)).isApplicable = (arg.raise (rest.length + 1)).isApplicable := by
      rw [isApplicable_raise, isApplicable_raise, isApplicable_rewrite raising_atomic]
    dsimp only
    rw [instantiate_raising, ← exposes_raising hdepth happlicable body]
    exact hstep'
  prepare {scope arg} _ harg := by
    have hassigned {t : Term} (ht : t.Respects .plain scope) : t.assignFree = t :=
      (respects_and.mp (respects_and.mp ht).2).2.assignFree_eq_self
    rw [hassigned harg, hassigned (harg.raising threshold delta)]

/-! ## Evaluation -/

/-- A rewriting by `raising` is a shift, unless that overflows. -/
theorem shift_raising_unlessOverflow (threshold delta : Nat) (t : Term) :
    Verdict.unlessOverflow.Holds (t.shift ⟨threshold, delta⟩)
      (t.rewrite (raising threshold delta) 0) := by
  have hraise : t.raiseAbove threshold delta = t.rewrite (raising threshold delta) 0 :=
    raiseAbove_eq_rewrite threshold delta 0 t
  rw [← hraise]
  exact t.shift_raise_unlessOverflow threshold delta

/-- **Evaluation commutes with weakening.** Take a well-formed term without instructions and without
unassigned occurrences, and the term with all depths above a threshold raised. If the term is forced to
some result within a bound, then within the same bound the raised term is forced to the raised result.
If the term applies an abstraction, then applying the raised abstraction to the raised argument gives the
raised result, and one step of it the raised result with the same flag. Nothing else can happen, except
that a depth becomes too large. -/
theorem evaluation_commutes_with_weakening {natives : InstructionSet} {threshold delta n : Nat}
    {t t' : Term} (ht : t.WellFormed) (hsize : t.Addressable) (hfree : t.InstructionFree)
    (hassigned : t.Assigned) (hraised : t.shift ⟨threshold, delta⟩ = .ok t') :
    (∀ u, force natives n t = .ok u →
      AgreeInRange (force natives n t') (u.shift ⟨threshold, delta⟩)) ∧
    ∀ binders body body' arg arg', t = .app (.abs binders body) arg →
      t' = .app (.abs binders body') arg' →
      (∀ u, apply natives n binders body arg = .ok u →
        AgreeInRange (apply natives n binders body' arg') (u.shift ⟨threshold, delta⟩)) ∧
      ∀ u flag, contract binders body arg = .ok (u, flag) →
        AgreeInRange (contract binders body' arg')
          (do return (← u.shift ⟨threshold, delta⟩, flag)) := by
  have hplain : t.Respects .plain [] := respects_and.mpr
    ⟨respects_and.mpr ⟨ht, hsize⟩, respects_and.mpr ⟨hfree, hassigned⟩⟩
  have hcommutes := commutes_raising natives threshold delta
  have htransports := hcommutes.transports n
  have hshift := shift_raising_unlessOverflow threshold delta
  obtain rfl := Verdict.atMost_of_unlessOverflow (hshift t) t' hraised
  refine ⟨fun u hu => .of_unlessOverflow (htransports.force trivial hplain u hu) (hshift u), ?_⟩
  rintro binders body body' arg arg' rfl happ
  obtain ⟨hf, harg⟩ := respects_app.mp hplain
  rw [rewrite_app, rewrite_abs, app.injEq, abs.injEq] at happ
  obtain ⟨⟨-, rfl⟩, rfl⟩ := happ
  refine ⟨fun u hu => .of_unlessOverflow (htransports.apply trivial hf harg u hu) (hshift u), ?_⟩
  intro u flag hu
  refine .of_unlessOverflow (hcommutes.contract_all hf harg _ hu) ?_
  exact Verdict.unlessOverflow.bind (hshift u) (Verdict.unlessOverflow.ok _)

/-- `(λx y. x y w) (λz. z v)` with `w` free at depth `1` and `v` at depth `2`. Raised by `5` above depth
`1`, it keeps `w`, which lies right above the two binders, and moves `v`; forced, both settle below the
binder `y`. -/
theorem evaluation_commutes_with_weakening_below_binder :
    let natives : InstructionSet := fun _ _ => .fail none
    let binders : List Variable := [⟨"x", 2⟩, ⟨"y", 1⟩]
    let body : Term := .app (.app (.var ⟨"x", 2⟩) (.var ⟨"y", 1⟩)) (.var ⟨"w", 3⟩)
    let arg (depth : Nat) : Term := .abs [⟨"z", 1⟩] (.app (.var ⟨"z", 1⟩) (.var ⟨"v", depth⟩))
    let result (depth : Nat) : Term := .abs [⟨"y", 1⟩]
      (.app (.app (.var ⟨"y", 1⟩) (.var ⟨"v", depth⟩)) (.var ⟨"w", 2⟩))
    let stepped (depth : Nat) : Term := .abs [⟨"y", 1⟩]
      (.app (.app (.abs [⟨"z", 1⟩] (.app (.var ⟨"z", 1⟩) (.var ⟨"v", depth⟩))) (.var ⟨"y", 1⟩))
        (.var ⟨"w", 2⟩))
    (∃ u, force natives 10 (.app (.abs binders body) (arg 8)) = .ok u ∧
      (result 3).shift ⟨1, 5⟩ = .ok u) ∧
    (∃ u, apply natives 10 binders body (arg 8) = .ok u ∧ (result 3).shift ⟨1, 5⟩ = .ok u) ∧
    ∃ u, contract binders body (arg 8) = .ok u ∧
      (do return (← (stepped 4).shift ⟨1, 5⟩, true)) = .ok u := by
  intro natives binders body arg result stepped
  obtain ⟨hforce, happ⟩ := @evaluation_commutes_with_weakening natives 1 5 10
    (.app (.abs binders body) (arg 3)) (.app (.abs binders body) (arg 8))
    (by decide) (by decide) (by decide) (by decide) rfl
  obtain ⟨happly, hstep⟩ := happ binders body body (arg 3) (arg 8) rfl rfl
  have hresult : (result 3).shift ⟨1, 5⟩ = .ok (result 8) := rfl
  have hstepped : (do return (← (stepped 4).shift ⟨1, 5⟩, true)) = .ok (stepped 9, true) := rfl
  have hforced : force natives 10 (.app (.abs binders body) (arg 8)) = .ok (result 8) := rfl
  have happlied : apply natives 10 binders body (arg 8) = .ok (result 8) := rfl
  have hcontracted : contract binders body (arg 8) = .ok (stepped 9, true) := by decide +kernel
  exact ⟨hforce (result 3) rfl (.of_ok hforced) (.of_ok hresult),
    happly (result 3) rfl (.of_ok happlied) (.of_ok hresult),
    hstep (stepped 4) true (by decide +kernel) (.of_ok hcontracted) (.of_ok hstepped)⟩

end Term

end IndexedLambda
