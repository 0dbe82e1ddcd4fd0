import IndexedLambda.Proofs.Term.FreeSubstitution
/-!
# Composition of substitutions

A substitution for free variables can be carried out anywhere in a term: `Term.substFreeAt` says what it
does to an occurrence under a number of binders. Here is how these rewritings compose. They commute with
raising (`rewrite_substFreeAt_raise`), two in a row are one (`substFreeAt_comp`), and to put an argument
in the place of a binder is one of them (`instantiate_eq_substFreeAt`). So a substitution may be carried
out before an argument goes in or after (`instantiate_substFreeAt`), which is what a reduction step needs
in order to be kept by substitution.
-/

namespace IndexedLambda

theorem Variable.lowerAbove_zero (j : Nat) (v : Variable) :
    v.lowerAbove 0 j = ⟨v.name, v.depth - j⟩ := by
  unfold Variable.lowerAbove
  split
  · obtain ⟨name, depth⟩ := v
    simp_all
  · rfl

namespace Term

variable {ρ ρ' : Variable → Term} {i j m n : Nat} {v : Variable}

theorem substFreeAt_of_bound (hpos : 1 ≤ v.depth) (hle : v.depth ≤ j) :
    substFreeAt ρ j v = .var v := if_pos ⟨hpos, hle⟩

theorem substFreeAt_of_free (h : ¬(1 ≤ v.depth ∧ v.depth ≤ j)) :
    substFreeAt ρ j v = (ρ ⟨v.name, v.depth - j⟩).raise j := by
  rw [substFreeAt, if_neg h, Variable.lowerAbove_zero]

/-- Under the first `i` of `i + j` binders there is a substitution for the free variables there. -/
theorem substFreeAt_add (v : Variable) :
    substFreeAt (substFreeAt ρ i) j v = substFreeAt ρ (i + j) v := by
  by_cases hinner : 1 ≤ v.depth ∧ v.depth ≤ j
  · rw [substFreeAt_of_bound hinner.1 hinner.2, substFreeAt_of_bound hinner.1 (by omega)]
  · rw [substFreeAt_of_free hinner]
    by_cases houter : 1 ≤ v.depth ∧ v.depth ≤ i + j
    · rw [substFreeAt_of_bound houter.1 houter.2,
        substFreeAt_of_bound (by dsimp only; omega) (by dsimp only; omega), raise_var,
        Variable.raiseAbove_of_lt (by dsimp only; omega)]
      dsimp only
      rw [Nat.sub_add_cancel (by omega)]
    · rw [substFreeAt_of_free houter, substFreeAt_of_free (by dsimp only; omega), raise_raise]
      dsimp only
      rw [Nat.sub_sub, Nat.add_comm j]

theorem rewrite_substFreeAt_add (t : Term) :
    t.rewrite (substFreeAt ρ) (i + j) = t.rewrite (substFreeAt (substFreeAt ρ i)) j := by
  rw [rewrite_add]
  congr 1
  funext j v
  exact (substFreeAt_add v).symm

/-- Raising above binders what has been raised past them. -/
theorem raise_above_raise (h : m ≤ n) (t : Term) :
    (t.raise n).rewrite (fun i v => .var (v.raiseAbove (0 + i) j)) m = t.raise (n + j) := by
  rw [rewrite_raise]
  unfold raise raiseAbove
  congr 1
  funext i v
  rw [Nat.zero_add, Nat.zero_add]
  by_cases hle : v.depth ≤ i
  · rw [Variable.raiseAbove_of_le hle, Variable.raiseAbove_of_le hle,
      Variable.raiseAbove_of_le (by omega)]
  · have hraised (k : Nat) : v.raiseAbove i k = ⟨v.name, v.depth + k⟩ :=
      Variable.raiseAbove_of_lt (by omega)
    rw [hraised, hraised, Variable.raiseAbove_of_lt (by dsimp only; omega)]
    dsimp only
    rw [Nat.add_assoc]

theorem rewrite_substFreeAt_raise (t : Term) :
    (t.raise m).rewrite (substFreeAt ρ) (i + m) = (t.rewrite (substFreeAt ρ) i).raise m := by
  have hadd : t.rewrite (substFreeAt ρ) i = t.rewrite (fun j v => substFreeAt ρ (i + j) v) 0 :=
    rewrite_add (i := i) (j := 0) t
  rw [rewrite_raise, hadd, raise, raiseAbove, rewrite_rewrite]
  congr 1
  funext j v
  by_cases hbound : 1 ≤ v.depth ∧ v.depth ≤ i + j
  · have hle := v.depth_raiseAbove_le j m
    have hpos : 1 ≤ (v.raiseAbove j m).depth := by
      unfold Variable.raiseAbove
      split
      · exact hbound.1
      · dsimp only
        omega
    rw [substFreeAt_of_bound hpos (by omega), substFreeAt_of_bound hbound.1 hbound.2, rewrite_var,
      Nat.zero_add]
  · have hfree : (v.raiseAbove j m).depth - (i + m + j) = v.depth - (i + j) ∧
        ¬(1 ≤ (v.raiseAbove j m).depth ∧ (v.raiseAbove j m).depth ≤ i + m + j) := by
      unfold Variable.raiseAbove
      split
      · omega
      · dsimp only
        omega
    have hname : (v.raiseAbove j m).name = v.name := by
      unfold Variable.raiseAbove
      split <;> rfl
    rw [substFreeAt_of_free hfree.2, substFreeAt_of_free hbound, hfree.1, hname,
      raise_above_raise (by omega), Nat.add_right_comm]

/-- Two substitutions in a row are one: the second acts on what the first puts in. -/
theorem substFreeAt_comp (t : Term) :
    (t.rewrite (substFreeAt ρ) i).rewrite (substFreeAt ρ') i =
      t.rewrite (substFreeAt fun v => (ρ v).substFree ρ') i := by
  rw [rewrite_rewrite]
  congr 1
  funext j v
  by_cases hbound : 1 ≤ v.depth ∧ v.depth ≤ j
  · rw [substFreeAt_of_bound hbound.1 hbound.2, substFreeAt_of_bound hbound.1 hbound.2, rewrite_var,
      substFreeAt_of_bound hbound.1 hbound.2]
  · rw [substFreeAt_of_free hbound, substFreeAt_of_free hbound, substFree, ← rewrite_substFreeAt_raise,
      Nat.zero_add]

/-- Raising above a threshold puts variables in the place of variables. -/
theorem var_raiseAbove_eq_substFreeAt (threshold n j : Nat) (v : Variable) :
    Term.var (v.raiseAbove (threshold + j) n) =
      substFreeAt (fun v => .var (v.raiseAbove threshold n)) j v := by
  obtain ⟨name, depth⟩ := v
  by_cases hbound : 1 ≤ depth ∧ depth ≤ j
  · have hle : depth ≤ threshold + j := Nat.le_add_left_of_le hbound.2
    rw [substFreeAt_of_bound hbound.1 hbound.2, Variable.raiseAbove_of_le hle]
  · -- seen from outside, the depth is above the threshold just if it is `j` above it here
    rw [substFreeAt_of_free hbound, raise_var]
    simp only [Variable.raiseAbove]
    grind

theorem raiseAbove_eq_rewrite (threshold n i : Nat) (t : Term) :
    t.raiseAbove (threshold + i) n =
      t.rewrite (substFreeAt fun v => .var (v.raiseAbove threshold n)) i := by
  have hadd : t.rewrite (substFreeAt fun v => .var (v.raiseAbove threshold n)) i =
      t.rewrite (fun j v => substFreeAt (fun v => .var (v.raiseAbove threshold n)) (i + j) v) 0 :=
    rewrite_add (i := i) (j := 0) t
  rw [hadd, raiseAbove]
  congr 1
  funext j v
  rw [Nat.add_assoc]
  exact var_raiseAbove_eq_substFreeAt threshold n (i + j) v

theorem raise_eq_substFree (n : Nat) (t : Term) :
    t.raise n = t.substFree fun v => .var (v.raiseAbove 0 n) :=
  raiseAbove_eq_rewrite 0 n 0 t

/-! ## Arguments in the place of binders -/

/-- The substitution that puts an argument in the place of the nearest binder. Variables further out come
one closer. -/
def opening (arg : Term) (v : Variable) : Term :=
  if v.depth = 1 then arg else .var ⟨v.name, v.depth - 1⟩

theorem opening_hit {arg : Term} (h : v.depth = 1) : opening arg v = arg := if_pos h

theorem opening_miss {arg : Term} (h : v.depth ≠ 1) : opening arg v = .var ⟨v.name, v.depth - 1⟩ :=
  if_neg h

theorem instantiate_eq_substFreeAt (body arg : Term) (n : Nat) :
    body.instantiate n arg = body.rewrite (substFreeAt (opening arg)) n := by
  have hadd : body.rewrite (substFreeAt (opening arg)) n =
      body.rewrite (fun j v => substFreeAt (opening arg) (n + j) v) 0 :=
    rewrite_add (i := n) (j := 0) body
  rw [hadd, instantiate]
  congr 1
  funext j v
  by_cases hbound : 1 ≤ v.depth ∧ v.depth ≤ n + j
  · rw [substFreeAt_of_bound hbound.1 hbound.2, instantiating_of_lt (by omega)]
  · rw [substFreeAt_of_free hbound]
    by_cases hhit : v.depth = n + 1 + j
    · rw [opening_hit (by dsimp only; omega), instantiating, if_pos hhit]
    · rw [opening_miss (by dsimp only; omega), raise_var]
      by_cases hzero : v.depth = 0
      · rw [instantiating_of_lt (by omega), Variable.raiseAbove_of_le (by dsimp only; omega)]
        obtain ⟨name, depth⟩ := v
        simp_all
      · rw [instantiating_of_gt (by omega), Variable.raiseAbove_of_lt (by dsimp only; omega)]
        dsimp only
        congr 2
        omega

/-- Inside an abstraction its binders count as remaining. -/
theorem instantiate_abs (n : Nat) (binders : List Variable) (body arg : Term) :
    (Term.abs binders body).instantiate n arg =
      .abs binders (body.instantiate (n + binders.length) arg) := by
  rw [instantiate_eq_substFreeAt, instantiate_eq_substFreeAt, rewrite_abs]

/-- What has been raised past a binder comes one closer when the binder goes. -/
theorem substFree_opening_raise (arg t : Term) (i : Nat) :
    (t.raise (i + 1)).substFree (opening arg) = t.raise i := by
  have hpast : ((t.raise i).raise (0 + 1 + 0)).rewrite (instantiating 0 arg) 0 = (t.raise i).raise 0 :=
    rewrite_raise_past (fun _ _ => instantiating_of_lt) (fun _ _ => instantiating_of_gt) 0 _
  rw [raise_zero] at hpast
  rw [substFree, ← instantiate_eq_substFreeAt, instantiate, ← raise_raise]
  exact hpast

/-- A substitution may be carried out before an argument goes in or after. -/
theorem instantiate_substFreeAt (body arg : Term) (i n : Nat) :
    (body.instantiate n arg).rewrite (substFreeAt ρ) (i + n) =
      (body.rewrite (substFreeAt ρ) (i + 1 + n)).instantiate n (arg.rewrite (substFreeAt ρ) i) := by
  rw [instantiate_eq_substFreeAt, instantiate_eq_substFreeAt, rewrite_substFreeAt_add,
    rewrite_substFreeAt_add, substFreeAt_comp, substFreeAt_comp]
  congr 2
  funext v
  have hat (t : Term) : t.substFree (substFreeAt ρ i) = t.rewrite (substFreeAt ρ) i := by
    rw [substFree, ← rewrite_substFreeAt_add, Nat.add_zero]
  rw [hat]
  by_cases hhit : v.depth = 1
  · rw [substFreeAt_of_bound (by omega) (by omega), substFree_var, opening_hit hhit, opening_hit hhit]
  · rw [opening_miss hhit, rewrite_var]
    by_cases hbound : 1 ≤ v.depth ∧ v.depth ≤ i + 1
    · rw [substFreeAt_of_bound hbound.1 hbound.2, substFree_var, opening_miss hhit,
        substFreeAt_of_bound (by dsimp only; omega) (by dsimp only; omega)]
    · rw [substFreeAt_of_free hbound, substFree_opening_raise,
        substFreeAt_of_free (by dsimp only; omega)]
      dsimp only
      rw [Nat.sub_sub, Nat.add_comm 1]

end Term

end IndexedLambda
