import IndexedLambda.Proofs.Term.Contraction
/-!
# Substitution for free variables

`Term.substFree` puts terms in the place of all free variables of a term at once. A free variable is known
by its name and its depth outside the term; under binders its depth is larger by their number, unless
it is unassigned. `Term.Uses` says that a variable occurs free. The two belong together: a term is left
alone exactly by the substitutions that leave its free variables alone
(`Term.substFree_eq_self_iff`).
-/

namespace IndexedLambda

/-- All the demands of a family of disciplines. -/
def Discipline.all {ι : Type} (d : ι → Discipline) : Discipline where
  occurrence scope v := ∀ i, (d i).occurrence scope v
  binders scope vs := ∀ i, (d i).binders scope vs
  arguments head n := ∀ i, (d i).arguments head n
  definitions n := ∀ i, (d i).definitions n

/-- The occurrences that a rewriting leaves alone. -/
def Discipline.fixedBy (visit : Nat → Variable → Term) : Discipline :=
  { Discipline.any with occurrence := fun scope w => visit scope.length w = .var w }

instance (base : Nat) (v : Variable) : (Discipline.without base v).Decides where
  occurrence scope w := inferInstanceAs (Decidable (w ≠ v.raiseAbove 0 (scope.length - base)))
  binders _ _ := inferInstanceAs (Decidable True)
  arguments _ _ := inferInstanceAs (Decidable True)
  definitions _ := inferInstanceAs (Decidable True)

theorem map_eq_self_iff {α : Type} {f : α → α} {as : List α} :
    as.map f = as ↔ ∀ a ∈ as, f a = a := by
  have hid := List.map_inj_left (l := as) (f := f) (g := fun a => a)
  rwa [List.map_id'] at hid

namespace Variable

variable {j : Nat} {v w : Variable}

/-- What a variable is called outside the binders around it, unless it belongs to one of them. -/
theorem raiseAbove_lowerAbove (h : ¬(1 ≤ w.depth ∧ w.depth ≤ j)) :
    (w.lowerAbove 0 j).raiseAbove 0 j = w := by
  obtain ⟨name, depth⟩ := w
  simp only [lowerAbove, raiseAbove] at h ⊢
  split
  · rfl
  · rw [if_neg (by simp only; omega)]
    simp only [mk.injEq, true_and]
    omega

theorem lowerAbove_raiseAbove (j : Nat) (v : Variable) : (v.raiseAbove 0 j).lowerAbove 0 j = v := by
  obtain ⟨name, depth⟩ := v
  simp only [lowerAbove, raiseAbove]
  split
  · rfl
  · rw [if_neg (by simp only; omega)]
    simp

theorem raiseAbove_free (j : Nat) (v : Variable) :
    ¬(1 ≤ (v.raiseAbove 0 j).depth ∧ (v.raiseAbove 0 j).depth ≤ j) := by
  unfold raiseAbove
  split
  · omega
  · simp only
    omega

theorem raiseAbove_inj (h : v.raiseAbove 0 j = w.raiseAbove 0 j) : v = w := by
  rw [← lowerAbove_raiseAbove j v, h, lowerAbove_raiseAbove]

end Variable

namespace Term

variable {ι : Type} {t : Term} {scope : List String} {visit : Nat → Variable → Term}
  {ρ : Variable → Term}

theorem respects_all {d : ι → Discipline} :
    t.Respects (.all d) scope ↔ ∀ i, t.Respects (d i) scope := by
  induction t using induction_on generalizing scope with
  | var v => exact Iff.rfl
  | abs binders body ih =>
      simp only [respects_abs, ih, forall_and]
      rfl
  | app l r ihl ihr => simp only [respects_app, ihl, ihr, forall_and]
  | const c => simp
  | list elems ih =>
      simp only [respects_list]
      exact ⟨fun h i t ht => (ih t ht).mp (h t ht) i, fun h t ht => (ih t ht).mpr fun i => h i t ht⟩
  | instr head args ih =>
      simp only [respects_instr, forall_and]
      refine and_congr Iff.rfl ?_
      exact ⟨fun h i t ht => (ih t ht).mp (h t ht) i, fun h t ht => (ih t ht).mpr fun i => h i t ht⟩
  | define form x a b iha ihb => simp only [respects_define, iha, ihb, forall_and]
  | recur defs b ihd ihb =>
      simp only [respects_recur, ihb, forall_and]
      refine and_congr Iff.rfl (and_congr ?_ Iff.rfl)
      exact ⟨fun h i p hp => (ihd p hp).mp (h p hp) i, fun h p hp => (ihd p hp).mpr fun i => h i p hp⟩

theorem rewrite_eq_self_iff :
    t.rewrite visit scope.length = t ↔ t.Respects (.fixedBy visit) scope := by
  induction t using induction_on generalizing scope with
  | var v => rw [rewrite_var, respects_var]; rfl
  | abs binders body ih =>
      rw [rewrite_abs, respects_abs, ← ih, length_under]
      simp [Discipline.fixedBy, Discipline.any]
  | app l r ihl ihr => simp [ihl, ihr]
  | const c => simp
  | list elems ih =>
      rw [rewrite_list, list.injEq, map_eq_self_iff, respects_list]
      exact forall₂_congr fun t ht => ih t ht
  | instr head args ih =>
      rw [rewrite_instr, instr.injEq, map_eq_self_iff, respects_instr]
      exact and_congr (iff_of_true rfl trivial) (forall₂_congr fun t ht => ih t ht)
  | define form x a b iha ihb => simp [iha, ihb]
  | recur defs b ihd ihb =>
      rw [rewrite_recur, recur.injEq, map_eq_self_iff, respects_recur, ihb]
      have hdefs : (∀ p ∈ defs, (p.1, p.2.rewrite visit scope.length) = p) ↔
          ∀ p ∈ defs, p.2.Respects (.fixedBy visit) scope := by
        refine forall₂_congr fun p hp => ?_
        rw [← ihd p hp, Prod.ext_iff]
        exact and_iff_right rfl
      rw [hdefs]
      exact (and_iff_right trivial).symm

/-- The variable occurs free. -/
def Uses (v : Variable) (t : Term) : Prop := ¬t.Respects (.without 0 v) []

instance (v : Variable) (t : Term) : Decidable (t.Uses v) :=
  inferInstanceAs (Decidable (¬t.Respects (.without 0 v) []))

/-- What is put in the place of an occurrence under `j` binders. -/
def substFreeAt (ρ : Variable → Term) (j : Nat) (w : Variable) : Term :=
  if 1 ≤ w.depth ∧ w.depth ≤ j then .var w else (ρ (w.lowerAbove 0 j)).raise j

/-- Puts terms in the place of all free variables. -/
def substFree (ρ : Variable → Term) (t : Term) : Term := t.rewrite (substFreeAt ρ) 0

theorem raise_var (j : Nat) (v : Variable) : (Term.var v).raise j = .var (v.raiseAbove 0 j) := by
  rw [raise, raiseAbove, rewrite_var]

theorem substFree_var (v : Variable) : (Term.var v).substFree ρ = ρ v := by
  have hlower : v.lowerAbove 0 0 = v := by
    unfold Variable.lowerAbove
    split <;> rfl
  rw [substFree, rewrite_var, substFreeAt, if_neg (by omega), hlower, raise_zero]

/-- Only a variable can be raised to a variable. -/
theorem eq_var_of_raise {j : Nat} {u : Term} {v : Variable}
    (h : u.raise j = .var (v.raiseAbove 0 j)) : u = .var v := by
  cases u with
  | var w =>
      rw [raise_var, var.injEq] at h
      rw [Variable.raiseAbove_inj h]
  | _ =>
      rw [raise, raiseAbove, rewrite] at h
      cases h

/-- An occurrence is left alone exactly if its variable is. -/
theorem substFreeAt_raiseAbove {j : Nat} {v : Variable} :
    substFreeAt ρ j (v.raiseAbove 0 j) = .var (v.raiseAbove 0 j) ↔ ρ v = .var v := by
  rw [substFreeAt, if_neg (v.raiseAbove_free j), v.lowerAbove_raiseAbove]
  constructor
  · exact eq_var_of_raise
  · intro h
    rw [h, raise_var]

theorem substFree_eq_self_iff : t.substFree ρ = t ↔ ∀ v, t.Uses v → ρ v = .var v := by
  have hfix : t.substFree ρ = t ↔ t.Respects (.fixedBy (substFreeAt ρ)) [] := by
    show t.rewrite (substFreeAt ρ) ([] : List String).length = t ↔ _
    exact rewrite_eq_self_iff
  rw [hfix]
  constructor
  · intro h v huses
    refine Classical.byContradiction fun hne => ?_
    refine huses (h.imp ⟨fun inner w hw => ?_, fun _ _ _ => trivial, fun _ _ _ => trivial,
      fun _ _ => trivial⟩)
    simp only [List.append_nil, respects_var] at hw ⊢
    intro heq
    subst heq
    exact hne (substFreeAt_raiseAbove.mp hw)
  · intro h
    -- every variable that is not left alone does not occur
    have hall : t.Respects (.all fun i : {v // ρ v ≠ .var v} => .without 0 i.1) [] := by
      refine respects_all.mpr fun i => ?_
      refine Classical.byContradiction fun huses => ?_
      exact i.2 (h i.1 huses)
    refine hall.imp ⟨fun inner w hw => ?_, fun _ _ _ => trivial, fun _ _ _ => trivial,
      fun _ _ => trivial⟩
    simp only [List.append_nil, respects_var] at hw ⊢
    show substFreeAt ρ inner.length w = .var w
    by_cases hbound : 1 ≤ w.depth ∧ w.depth ≤ inner.length
    · exact if_pos hbound
    · have hw' := Variable.raiseAbove_lowerAbove hbound
      have hρ : ρ (w.lowerAbove 0 inner.length) = .var (w.lowerAbove 0 inner.length) := by
        refine Classical.byContradiction fun hne => ?_
        exact hw ⟨_, hne⟩ hw'.symm
      have hfilled := substFreeAt_raiseAbove (j := inner.length).mpr hρ
      rwa [hw'] at hfilled

end Term

end IndexedLambda
