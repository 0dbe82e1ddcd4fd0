import IndexedLambda.Proofs.Evaluation.SpineReduction
import IndexedLambda.Proofs.Evaluation.WellFormed
/-!
# Head normal forms

`Term.headNormal` forces a term until forcing leaves it as it is. That does not make its spine normal:
`(λz. z) (λx. x x)`, applied to itself, is forced to itself. This module shows that such terms are the
only exception. What the evaluator gives has a normal spine exactly if the term has a beta reduct with
one.

Where the spine is not normal, forcing contracts its redex (`force_spineStep`). If the term had a reduct
with a normal spine, then the number of steps that its spine takes would be defined and go down with that
contraction, and forcing could not lead back to the same term.

Arguments are prepared on the way: their unassigned occurrences get the first free depth. So reductions
are followed on terms in which all unassigned occurrences have it (`Term.assignAll`).
-/

namespace IndexedLambda.Term

variable {natives : InstructionSet} {n k : Nat} {t t' u w : Term} {ρ : Variable → Term}

/-! ## Assigning all occurrences -/

/-- The substitution that gives unassigned variables the first free depth. -/
def assigning (v : Variable) : Term := (Term.var v).assignFree

/-- Gives unassigned occurrences the first free depth, also below binders. -/
def assignAll (t : Term) : Term := t.substFree assigning

theorem assigning_var (v : Variable) : ∃ w, assigning v = .var w := ⟨_, by rw [assigning, assignFree]⟩

theorem assignAll_var (v : Variable) : (Term.var v).assignAll = assigning v := substFree_var v

theorem assignAll_app (l r : Term) : (Term.app l r).assignAll = .app l.assignAll r.assignAll :=
  rewrite_app l r

/-- Preparing a term that is assigned afterwards changes nothing. -/
theorem assignAll_assignFree (t : Term) : t.assignFree.assignAll = t.assignAll := by
  unfold assignAll substFree
  induction t using induction_on with
  | var v =>
      rw [assignFree, ← substFree, ← substFree, substFree_var, substFree_var]
      unfold assigning
      rw [assignFree, assignFree]
      cases h : v.isUnassigned with
      | true => rfl
      | false => simp [h]
  | abs binders body _ => rw [assignFree]
  | app l r ihl ihr => simp only [assignFree, rewrite_app, ihl, ihr]
  | const c => rw [assignFree]
  | list elems ih =>
      rw [assignFree, assignFreeList_eq_map]
      simpa using ih
  | instr head args ih =>
      rw [assignFree, assignFreeList_eq_map]
      simpa using ih
  | define form x a b iha ihb => simp only [assignFree, rewrite_define, iha, ihb]
  | recur defs b ihd ihb =>
      rw [assignFree, assignFreeDefs_eq_map]
      simpa [ihb] using fun x t ht => ihd (x, t) ht

theorem isAbs_assignAll (t : Term) : t.assignAll.isAbs = t.isAbs := by
  cases t with
  | var v =>
      obtain ⟨w, hw⟩ := assigning_var v
      rw [assignAll_var, hw]
      rfl
  | _ =>
      unfold assignAll substFree
      simp [isAbs]

theorem spineNormal_assignAll (t : Term) : t.assignAll.SpineNormal ↔ t.SpineNormal := by
  induction t using induction_on with
  | var v =>
      obtain ⟨w, hw⟩ := assigning_var v
      rw [assignAll_var, hw]
      exact Iff.rfl
  | app l r ihl _ =>
      rw [assignAll_app]
      show l.assignAll.isAbs = false ∧ l.assignAll.SpineNormal ↔ l.isAbs = false ∧ l.SpineNormal
      rw [isAbs_assignAll, ihl]
  | _ =>
      unfold assignAll substFree
      simp [SpineNormal]

/-- The redex on the spine was there before. -/
theorem SpineStep.of_assignAll (h : SpineStep t.assignAll w) :
    ∃ u, SpineStep t u ∧ w = u.assignAll := by
  induction t using induction_on generalizing w with
  | var v =>
      obtain ⟨x, hx⟩ := assigning_var v
      rw [assignAll_var, hx] at h
      cases h
  | app l r ihl _ =>
      rw [assignAll_app] at h
      generalize hl : l.assignAll = operator at h
      cases h with
      | contract v rest body _ =>
          cases l with
          | abs binders b =>
              obtain rfl : binders = v :: rest := (Term.abs.inj hl).1
              have hstep := SpineStep.contract v rest b r
              have hassigned := hstep.substFreeAt (ρ := assigning) 0
              rw [← substFree, ← assignAll, assignAll_app, hl] at hassigned
              exact ⟨_, hstep, (SpineStep.contract v rest body _).unique hassigned⟩
          | _ =>
              have habs := congrArg isAbs hl
              rw [isAbs_assignAll] at habs
              cases habs
      | operator _ hstep =>
          obtain ⟨u, hu, rfl⟩ := ihl (hl ▸ hstep)
          exact ⟨.app u r, .operator r hu, (assignAll_app u r).symm⟩
  | _ =>
      unfold assignAll substFree at h
      simp at h
      cases h

/-- A normal spine that is found after assigning is found before. -/
theorem HaltsIn.of_assignAll (h : HaltsIn k t.assignAll) : ∃ u, Reduces t u ∧ u.SpineNormal := by
  generalize ht : t.assignAll = t₁ at h
  induction h generalizing t with
  | done hnormal =>
      subst ht
      exact ⟨t, .refl, (spineNormal_assignAll t).mp hnormal⟩
  | step hstep _ ih =>
      subst ht
      obtain ⟨u, hu, rfl⟩ := hstep.of_assignAll
      obtain ⟨w, hw, hnormal⟩ := ih rfl
      exact ⟨w, .head hu.beta hw, hnormal⟩

/-! ## Forcing -/

theorem compatible_substFreeAt (ρ : Variable → Term) : Compatible fun i t u =>
    Reduces (t.rewrite (substFreeAt ρ) i) (u.rewrite (substFreeAt ρ) i) where
  refl _ := .refl
  trans := .trans
  contract v rest body arg := .single ((Beta.contract v rest body arg).substFreeAt _)
  wrap rest h := by
    rw [rewrite_wrap, rewrite_wrap]
    exact h.wrap rest
  operator r h := by
    simp only [rewrite_app]
    exact h.operator _
  define form x ha hb := by
    simp only [rewrite_define]
    exact ha.define form x hb
  recur hdefs hb := by
    simp only [rewrite_recur]
    refine .recur ?_ hb
    exact List.forall₂_map_left_iff.mpr (List.forall₂_map_right_iff.mpr hdefs)

theorem followed_assigning (natives : InstructionSet) :
    Followed natives (Discipline.sound.and .instructionFree) (· = []) fun i t u =>
      Reduces (t.rewrite (substFreeAt assigning) i) (u.rewrite (substFreeAt assigning) i) where
  toCompatible := compatible_substFreeAt assigning
  evaluable := evaluable_instructionFree natives
  free h := h.2
  prepare {_ arg} f hscope _ := by
    subst hscope
    show Reduces (Term.app f arg).assignAll (Term.app f arg.assignFree).assignAll
    rw [assignAll_app, assignAll_app, assignAll_assignFree]

/-- Forcing contracts the redex of a spine that is not normal. -/
theorem force_spineStep (ht : t.Respects (Discipline.sound.and .instructionFree) [])
    (hredex : ¬ t.SpineNormal) (h : force natives n t = .ok t') :
    ∃ u w, Reduces t.assignAll u ∧ SpineStep u w ∧ Reduces w t'.assignAll := by
  have htraces := (followed_assigning natives).traces
  have hkeeps := (evaluable_instructionFree natives).preserves
  induction n generalizing t t' with
  | zero => cases h
  | succ n ih =>
      cases t with
      | app l r =>
          obtain ⟨hl, hr⟩ := respects_app.mp ht
          obtain ⟨operator, hoperator, hcase⟩ := force_app h
          have hl' := (hkeeps n).force ⟨rfl, rfl⟩ hl hoperator
          rw [isApplicable_eq_isAbs (respects_and.mp hl').2] at hcase
          rcases hcase with ⟨habs, hfeed⟩ | ⟨habs, rfl⟩
          · obtain ⟨binders, body, rfl⟩ := isAbs_eq_true.mp habs
            have hfirst : Reduces (Term.app l r).assignAll
                (Term.app (.abs binders body) r.assignFree).assignAll := by
              rw [assignAll_app, assignAll_app, assignAll_assignFree]
              exact ((htraces n).force rfl hl hoperator).operator _
            cases n with
            | zero => cases hfeed
            | succ n =>
                obtain ⟨v, rest, rfl, hrest⟩ := (htraces n).apply rfl hl' hr hfeed
                exact ⟨_, _, hfirst, (SpineStep.contract v rest body _).substFreeAt 0, hrest⟩
          · -- an abstraction would have been applied, so the redex is further down
            have hinner : ¬ l.SpineNormal := by
              intro hnormal
              refine hredex ⟨Bool.eq_false_iff.mpr fun hl => ?_, hnormal⟩
              obtain ⟨binders, body, rfl⟩ := isAbs_eq_true.mp hl
              rw [eq_of_force_abs hoperator] at habs
              cases habs
            obtain ⟨u, w, hu, hstep, hw⟩ := ih hl hinner hoperator
            rw [assignAll_app, assignAll_app]
            exact ⟨_, _, hu.operator _, .operator _ hstep, hw.operator _⟩
      | _ => exact absurd trivial hredex

/-- A term that is forced to itself and whose spine could become normal has a normal spine. -/
theorem HaltsIn.spineNormal_of_force (hhalts : HaltsIn k t.assignAll)
    (ht : t.Respects (Discipline.sound.and .instructionFree) [])
    (hfixed : force natives n t = .ok t) : t.SpineNormal := by
  refine Decidable.byContradiction fun hredex => ?_
  obtain ⟨u, w, hu, hstep, hw⟩ := force_spineStep ht hredex hfixed
  -- one step fewer on the way back to the same term
  obtain ⟨m, hm, hhalts'⟩ := hhalts.reduces hu
  obtain ⟨j, rfl, hj⟩ := hhalts'.pred hstep
  obtain ⟨k', hk', hhalts''⟩ := hj.reduces hw
  have hsame := hhalts.unique hhalts''
  omega

/-- **The head normal form has a normal spine exactly if the term has one.** If the evaluator gives a
head normal form of a well-formed term without instructions, then following left operands from its root
never reaches an abstraction in operator position, unless no beta reduct of the term is like that. -/
theorem headNormal_spineNormal_iff {natives : InstructionSet} {n : Nat} {t t' : Term}
    (ht : t.WellFormed) (hsize : t.Addressable) (hfree : t.InstructionFree)
    (h : headNormal natives n t = .ok t') :
    t'.SpineNormal ↔ ∃ u, Reduces t u ∧ u.SpineNormal := by
  have hsound : t.Respects (Discipline.sound.and .instructionFree) [] :=
    respects_and.mpr ⟨respects_and.mpr ⟨ht, hsize⟩, hfree⟩
  obtain ⟨hreduces, ht', m, hfixed⟩ := (followed_assigning natives).headNormal rfl hsound h
  constructor
  · intro hnormal
    obtain ⟨k, hk⟩ := HaltsIn.of_reduces hreduces ((spineNormal_assignAll t').mpr hnormal)
    exact HaltsIn.of_assignAll (t := t) hk
  · rintro ⟨u, hu, hnormal⟩
    have hassigned : Reduces t.assignAll u.assignAll := hu.substFreeAt (fun _ _ => .refl) 0
    obtain ⟨k, hk⟩ := HaltsIn.of_reduces hassigned ((spineNormal_assignAll u).mpr hnormal)
    obtain ⟨j, -, hj⟩ := hk.reduces hreduces
    exact HaltsIn.spineNormal_of_force hj ht' hfixed

/-- `((λx. x) ((λy. y) c)) d`: the first time the term is forced, a redex is left on the spine. -/
theorem headNormal_spineNormal_iff_of_late_redex :
    let t := app (.app (.abs [⟨"x", 1⟩] (.var ⟨"x", 1⟩))
      (.app (.abs [⟨"y", 1⟩] (.var ⟨"y", 1⟩)) (.const "c"))) (.const "d")
    ∃ t', headNormal (fun _ _ => .fail none) 20 t = .ok t' ∧ t'.SpineNormal ∧
      ∃ u, Reduces t u ∧ u.SpineNormal := by
  intro t
  have hhead : headNormal (fun _ _ => .fail none) 20 t = .ok (.app (.const "c") (.const "d")) := rfl
  have hiff := headNormal_spineNormal_iff (by decide) (by decide) (by decide) hhead
  have hnormal : (Term.app (.const "c") (.const "d")).SpineNormal := by decide
  exact ⟨_, hhead, hnormal, hiff.mp hnormal⟩

/-- `(λz. z) (λx. x x)`, applied to itself, is its own head normal form, with the redex of its operator
still there. -/
theorem headNormal_keeps_redex :
    let self := app (.abs [⟨"z", 1⟩] (.var ⟨"z", 1⟩))
      (.abs [⟨"x", 1⟩] (.app (.var ⟨"x", 1⟩) (.var ⟨"x", 1⟩)))
    let t := app self self
    t.WellFormed ∧ t.Addressable ∧ t.InstructionFree ∧
      headNormal (fun _ _ => .fail none) 20 t = .ok t ∧ ¬ t.SpineNormal := by
  exact ⟨by decide, by decide, by decide, rfl, by decide⟩

end IndexedLambda.Term
