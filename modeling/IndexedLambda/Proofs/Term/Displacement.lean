import IndexedLambda.Proofs.Term.Rewriting
/-!
# Displacement of free occurrences

A shift by a nonnegative amount raises the free occurrences of a term, one by a negative amount lowers
them. `Term.raiseAbove` and `Term.lowerAbove` are these rewritings on natural numbers, without faults,
and `Term.replacing` is the rewriting behind `Term.replace`. This module shows that shifting and
replacing give what the rewritings give unless a word becomes too large (`Verdict.unlessOverflow`), and
when there is certainly room enough.

A number of binders is read as a signed word when a term is put under them. `Discipline.addressable`
says that every list of binders is short enough for that reading to be the number itself.
-/

namespace IndexedLambda

/-- Number of the nonnegative signed words: two to the power 63. -/
def signedRange : Nat := 9223372036854775808

/-- Every depth is below a bound, and no place lies under more than `nesting` binders. -/
def Discipline.within (depth nesting : Nat) : Discipline where
  occurrence scope v := v.depth < depth ∧ scope.length ≤ nesting
  binders scope vs := scope.length + vs.length ≤ nesting
  arguments _ _ := True
  definitions _ := True

/-- Every list of binders has a length that is a nonnegative signed word. -/
def Discipline.addressable : Discipline where
  occurrence _ _ := True
  binders _ vs := vs.length < signedRange
  arguments _ _ := True
  definitions _ := True

instance (depth nesting : Nat) : (Discipline.within depth nesting).Decides where
  occurrence scope v := inferInstanceAs (Decidable (v.depth < depth ∧ scope.length ≤ nesting))
  binders scope vs := inferInstanceAs (Decidable (scope.length + vs.length ≤ nesting))
  arguments _ _ := inferInstanceAs (Decidable True)
  definitions _ := inferInstanceAs (Decidable True)

instance : Discipline.addressable.Decides where
  occurrence _ _ := inferInstanceAs (Decidable True)
  binders _ vs := inferInstanceAs (Decidable (vs.length < signedRange))
  arguments _ _ := inferInstanceAs (Decidable True)
  definitions _ := inferInstanceAs (Decidable True)

/-- A word would have become too large: the number of binders around a place, or a depth that is moved
past the last one. -/
def Fault.IsOverflow : Fault → Prop
  | .overflow => True
  | .leavesFreeRange depth _ delta => (wordRange : Int) ≤ depth + delta
  | _ => False

/-- The computation gives the value, unless a word becomes too large on the way. -/
def Verdict.unlessOverflow : Verdict where
  Holds x a := x = .ok a ∨ ∃ fault : Fault, fault.IsOverflow ∧ x = .error fault
  ok _ := .inl rfl
  bind := by
    rintro α β x f a b (rfl | ⟨fault, hfault, rfl⟩) hf
    · exact hf
    · exact .inr ⟨fault, hfault, rfl⟩

theorem Verdict.atMost_of_unlessOverflow {α : Type} {x : Except Fault α} {a : α}
    (h : Verdict.unlessOverflow.Holds x a) : Verdict.atMost.Holds x a := by
  rintro a' rfl
  rcases h with h | ⟨fault, -, h⟩
  · exact Except.ok.inj h
  · cases h

/-- The computation is not stopped because a word becomes too large. -/
def InRange {α : Type} (x : Except Fault α) : Prop := ∀ fault, x = .error fault → ¬ fault.IsOverflow

theorem InRange.of_ok {α : Type} {x : Except Fault α} {a : α} (h : x = .ok a) : InRange x := by
  rintro fault rfl
  cases h

theorem InRange.eq_ok {α : Type} {x : Except Fault α} {a : α} (hx : InRange x)
    (h : Verdict.unlessOverflow.Holds x a) : x = .ok a := by
  rcases h with h | ⟨fault, hfault, h⟩
  · exact h
  · exact absurd hfault (hx fault h)

/-- Both computations give the same value, if they stay in range. -/
def AgreeInRange {α : Type} (x y : Except Fault α) : Prop :=
  InRange x → InRange y → ∃ a, x = .ok a ∧ y = .ok a

theorem AgreeInRange.of_unlessOverflow {α : Type} {x y : Except Fault α} {a : α}
    (hx : Verdict.unlessOverflow.Holds x a) (hy : Verdict.unlessOverflow.Holds y a) :
    AgreeInRange x y :=
  fun hrange hrange' => ⟨a, hrange.eq_ok hx, hrange'.eq_ok hy⟩

namespace Variable

/-- Adds `n` to a depth above the threshold. -/
def raiseAbove (threshold n : Nat) (v : Variable) : Variable :=
  if v.depth ≤ threshold then v else { v with depth := v.depth + n }

/-- Takes `n` off a depth above the threshold. -/
def lowerAbove (threshold n : Nat) (v : Variable) : Variable :=
  if v.depth ≤ threshold then v else { v with depth := v.depth - n }

theorem raiseAbove_of_le {threshold n : Nat} {v : Variable} (h : v.depth ≤ threshold) :
    v.raiseAbove threshold n = v := if_pos h

theorem raiseAbove_of_lt {threshold n : Nat} {v : Variable} (h : threshold < v.depth) :
    v.raiseAbove threshold n = ⟨v.name, v.depth + n⟩ := if_neg (by omega)

theorem lowerAbove_of_le {threshold n : Nat} {v : Variable} (h : v.depth ≤ threshold) :
    v.lowerAbove threshold n = v := if_pos h

theorem lowerAbove_of_lt {threshold n : Nat} {v : Variable} (h : threshold < v.depth) :
    v.lowerAbove threshold n = ⟨v.name, v.depth - n⟩ := if_neg (by omega)

/-- No occurrence lies in the gap, so it does not matter where in it the second threshold is. -/
theorem raiseAbove_raiseAbove_gap {c c' d : Nat} (e : Nat) (hle : c ≤ c') (hgap : c' ≤ c + d)
    (v : Variable) : (v.raiseAbove c d).raiseAbove c' e = v.raiseAbove c (d + e) := by
  rcases Nat.lt_or_ge c v.depth with hlt | hge
  · rw [raiseAbove_of_lt hlt, raiseAbove_of_lt hlt, raiseAbove_of_lt (by simp only; omega)]
    simp [Nat.add_assoc]
  · rw [raiseAbove_of_le hge, raiseAbove_of_le hge, raiseAbove_of_le (by omega)]

theorem raiseAbove_raiseAbove (threshold m n : Nat) (v : Variable) :
    (v.raiseAbove threshold m).raiseAbove threshold n = v.raiseAbove threshold (m + n) :=
  raiseAbove_raiseAbove_gap n (Nat.le_refl _) (Nat.le_add_right _ _) v

theorem raiseAbove_zero (threshold : Nat) (v : Variable) : v.raiseAbove threshold 0 = v := by
  unfold raiseAbove
  split <;> rfl

theorem depth_raiseAbove_le (threshold n : Nat) (v : Variable) :
    (v.raiseAbove threshold n).depth ≤ v.depth + n := by
  unfold raiseAbove
  split
  · omega
  · exact Nat.le_refl _

end Variable

theorem addWord_unlessOverflow (a b : Nat) : Verdict.unlessOverflow.Holds (addWord a b) (a + b) := by
  unfold addWord
  split
  · exact Verdict.unlessOverflow.ok _
  · exact .inr ⟨.overflow, trivial, rfl⟩

theorem addWord_atMost (a b : Nat) : Verdict.atMost.Holds (addWord a b) (a + b) :=
  Verdict.atMost_of_unlessOverflow (addWord_unlessOverflow a b)

theorem addWord_exactly {a b : Nat} (h : a + b < wordRange) : addWord a b = .ok (a + b) := if_pos h

theorem addWord_eq_ok_iff {a b n : Nat} : addWord a b = .ok n ↔ a + b < wordRange ∧ n = a + b := by
  constructor
  · intro h
    unfold addWord at h
    split at h
    · exact ⟨‹_›, (Except.ok.inj h).symm⟩
    · cases h
  · rintro ⟨hroom, rfl⟩
    exact addWord_exactly hroom

namespace Shift

theorem under_unlessOverflow (threshold n : Nat) (delta : Int) :
    Verdict.unlessOverflow.Holds (Shift.under ⟨threshold, delta⟩ n) ⟨threshold + n, delta⟩ :=
  Verdict.unlessOverflow.bind (addWord_unlessOverflow threshold n) (Verdict.unlessOverflow.ok _)

theorem under_exactly {threshold n : Nat} {delta : Int} (h : threshold + n < wordRange) :
    Shift.under ⟨threshold, delta⟩ n = .ok ⟨threshold + n, delta⟩ := by
  rw [Shift.under, addWord_exactly h]
  rfl

theorem up_eq {n : Nat} (h : n < signedRange) : Shift.up n = ⟨0, n⟩ := by
  have hword : (n : Int).bmod wordRange = n := by
    unfold signedRange at h
    apply Int.bmod_eq_of_le <;> (unfold wordRange; omega)
  rw [Shift.up, hword]

end Shift

namespace Variable

theorem shift_unlessOverflow {threshold : Nat} {delta : Int} {v w : Variable}
    (hbound : v.depth ≤ threshold → w = v)
    (hfree : threshold < v.depth →
      0 < v.depth + delta ∧ w = ⟨v.name, (v.depth + delta).toNat⟩) :
    Verdict.unlessOverflow.Holds (v.shift ⟨threshold, delta⟩) w := by
  unfold Variable.shift Shift.move
  by_cases hle : v.depth ≤ threshold
  · rw [if_pos hle, hbound hle]
    exact Verdict.unlessOverflow.ok _
  · obtain ⟨hpos, hw⟩ := hfree (by omega)
    rw [if_neg hle, hw]
    dsimp only
    split
    · exact Verdict.unlessOverflow.ok _
    case isFalse hrange =>
      -- the depth has stayed positive, so it is too large
      refine .inr ⟨.leavesFreeRange v.depth threshold delta, ?_, rfl⟩
      show (wordRange : Int) ≤ v.depth + delta
      omega

theorem shift_exactly {threshold : Nat} {delta : Int} {v w : Variable}
    (hbound : v.depth ≤ threshold → w = v)
    (hfree : threshold < v.depth → 0 < v.depth + delta ∧ v.depth + delta < wordRange ∧
      w = ⟨v.name, (v.depth + delta).toNat⟩) :
    v.shift ⟨threshold, delta⟩ = .ok w := by
  unfold Variable.shift Shift.move
  by_cases hle : v.depth ≤ threshold
  · rw [if_pos hle, hbound hle]
    rfl
  · obtain ⟨hpos, hword, hw⟩ := hfree (by omega)
    rw [if_neg hle]
    dsimp only
    rw [if_pos ⟨hpos, hword⟩, hw]
    rfl

theorem shift_raise_unlessOverflow (threshold n : Nat) (v : Variable) :
    Verdict.unlessOverflow.Holds (v.shift ⟨threshold, n⟩) (v.raiseAbove threshold n) :=
  shift_unlessOverflow raiseAbove_of_le fun h => ⟨by omega, by rw [raiseAbove_of_lt h]; congr 1⟩

theorem shift_raise_atMost (threshold n : Nat) (v : Variable) :
    Verdict.atMost.Holds (v.shift ⟨threshold, n⟩) (v.raiseAbove threshold n) :=
  Verdict.atMost_of_unlessOverflow (v.shift_raise_unlessOverflow threshold n)

theorem shift_raise_exactly {threshold n : Nat} {v : Variable} (h : v.depth + n < wordRange) :
    v.shift ⟨threshold, n⟩ = .ok (v.raiseAbove threshold n) :=
  shift_exactly raiseAbove_of_le fun hlt =>
    ⟨by omega, by omega, by rw [raiseAbove_of_lt hlt]; congr 1⟩

theorem shift_lower_unlessOverflow {threshold n : Nat} (hn : n ≤ threshold) (v : Variable) :
    Verdict.unlessOverflow.Holds (v.shift ⟨threshold, -n⟩) (v.lowerAbove threshold n) :=
  shift_unlessOverflow lowerAbove_of_le fun h =>
    ⟨by omega, by rw [lowerAbove_of_lt h]; congr 1; omega⟩

theorem shift_lower_exactly {threshold n : Nat} {v : Variable} (hn : n ≤ threshold)
    (h : v.depth < wordRange) : v.shift ⟨threshold, -n⟩ = .ok (v.lowerAbove threshold n) :=
  shift_exactly lowerAbove_of_le fun hlt =>
    ⟨by omega, by omega, by rw [lowerAbove_of_lt hlt]; congr 1; omega⟩

end Variable

namespace Term

/-- Adds `n` to every depth above the threshold. -/
def raiseAbove (threshold n : Nat) (t : Term) : Term :=
  t.rewrite (fun j v => .var (v.raiseAbove (threshold + j) n)) 0

/-- Takes `n` off every depth above the threshold. -/
def lowerAbove (threshold n : Nat) (t : Term) : Term :=
  t.rewrite (fun j v => .var (v.lowerAbove (threshold + j) n)) 0

/-- Adds `n` to the depth of every free occurrence. -/
def raise (n : Nat) (t : Term) : Term := t.raiseAbove 0 n

/-- The rewriting that puts `u` in the place of `v`. -/
def replacing (v : Variable) (u : Term) (j : Nat) (w : Variable) : Term :=
  if w = v.raiseAbove 0 j then u.raise j else .var w

theorem raise_zero (t : Term) : t.raise 0 = t := by
  simp only [raise, raiseAbove, Variable.raiseAbove_zero]
  exact rewrite_id t

theorem raise_raise (m n : Nat) (t : Term) : (t.raise m).raise n = t.raise (m + n) := by
  simp only [raise, raiseAbove, rewrite_rewrite, rewrite_var, Variable.raiseAbove_raiseAbove]

/-- Rewriting what has been raised: the second rewriting sees the raised occurrences. -/
theorem rewrite_raise (visit : Nat → Variable → Term) (j n : Nat) (t : Term) :
    (t.raise n).rewrite visit j = t.rewrite (fun i v => visit (j + i) (v.raiseAbove i n)) 0 := by
  have hadd : (t.raise n).rewrite visit j = (t.raise n).rewrite (fun i v => visit (j + i) v) 0 :=
    rewrite_add (i := j) (j := 0) _
  rw [hadd, raise, raiseAbove, rewrite_rewrite]
  simp only [rewrite_var, Nat.zero_add]

/-! ## Shifting -/

theorem shift_raise_unlessOverflow (threshold n : Nat) (t : Term) :
    Verdict.unlessOverflow.Holds (t.shift ⟨threshold, n⟩) (t.raiseAbove threshold n) := by
  unfold shift raiseAbove
  refine traverse_agrees .unlessOverflow (fun j => (⟨threshold + j, n⟩ : Shift)) _
    (fun inner vs _ => ?_) (fun inner v _ => ?_) (respects_any [] t)
  · rw [← Nat.add_assoc]
    exact Shift.under_unlessOverflow _ _ _
  · exact Verdict.unlessOverflow.bind (v.shift_raise_unlessOverflow _ n) (Verdict.unlessOverflow.ok _)

theorem shift_raise_atMost (threshold n : Nat) (t : Term) :
    Verdict.atMost.Holds (t.shift ⟨threshold, n⟩) (t.raiseAbove threshold n) :=
  Verdict.atMost_of_unlessOverflow (t.shift_raise_unlessOverflow threshold n)

theorem shift_lower_unlessOverflow {threshold n : Nat} (hn : n ≤ threshold) (t : Term) :
    Verdict.unlessOverflow.Holds (t.shift ⟨threshold, -n⟩) (t.lowerAbove threshold n) := by
  unfold shift lowerAbove
  refine traverse_agrees .unlessOverflow (fun j => (⟨threshold + j, -n⟩ : Shift)) _
    (fun inner vs _ => ?_) (fun inner v _ => ?_) (respects_any [] t)
  · rw [← Nat.add_assoc]
    exact Shift.under_unlessOverflow _ _ _
  · exact Verdict.unlessOverflow.bind (v.shift_lower_unlessOverflow (by omega))
      (Verdict.unlessOverflow.ok _)

theorem shift_up_unlessOverflow {n : Nat} (hn : n < signedRange) (t : Term) :
    Verdict.unlessOverflow.Holds (t.shift (.up n)) (t.raise n) := by
  rw [Shift.up_eq hn]
  exact shift_raise_unlessOverflow 0 n t

theorem Respects.shift_raise_exactly {depth nesting threshold n : Nat} {t : Term}
    (ht : t.Respects (.within depth nesting) []) (hdepth : depth + n ≤ wordRange)
    (hnesting : threshold + nesting < wordRange) :
    t.shift ⟨threshold, n⟩ = .ok (t.raiseAbove threshold n) := by
  unfold shift raiseAbove
  refine traverse_agrees .exactly (fun j => (⟨threshold + j, n⟩ : Shift)) _
    (fun inner vs (hvs : _ ≤ nesting) => ?_) (fun inner v hv => ?_) ht
  · rw [List.append_nil] at hvs
    rw [← Nat.add_assoc]
    exact Shift.under_exactly (by omega)
  · exact Verdict.exactly.bind (Variable.shift_raise_exactly (by have := hv.1; omega))
      (Verdict.exactly.ok _)

theorem Respects.shift_lower_exactly {depth nesting threshold n : Nat} {t : Term}
    (ht : t.Respects (.within depth nesting) []) (hdepth : depth ≤ wordRange)
    (hthreshold : n ≤ threshold) (hnesting : threshold + nesting < wordRange) :
    t.shift ⟨threshold, -n⟩ = .ok (t.lowerAbove threshold n) := by
  unfold shift lowerAbove
  refine traverse_agrees .exactly (fun j => (⟨threshold + j, -n⟩ : Shift)) _
    (fun inner vs (hvs : _ ≤ nesting) => ?_) (fun inner v hv => ?_) ht
  · rw [List.append_nil] at hvs
    rw [← Nat.add_assoc]
    exact Shift.under_exactly (by omega)
  · exact Verdict.exactly.bind (Variable.shift_lower_exactly (by omega) (by have := hv.1; omega))
      (Verdict.exactly.ok _)

theorem Respects.shift_up_exactly {depth nesting n : Nat} {t : Term}
    (ht : t.Respects (.within depth nesting) []) (hn : n < signedRange)
    (hdepth : depth + n ≤ wordRange) (hnesting : nesting < wordRange) :
    t.shift (.up n) = .ok (t.raise n) := by
  rw [Shift.up_eq hn]
  exact ht.shift_raise_exactly hdepth (by omega)

/-! ## Replacing -/

theorem Respects.replace_unlessOverflow {scope : List String} {t : Term} (v : Variable) (u : Term)
    (ht : t.Respects .addressable scope) :
    Verdict.unlessOverflow.Holds (t.replace v u) (t.rewrite (replacing v u) 0) := by
  have hstate : (v, u) = (v.raiseAbove 0 0, u.raise 0) := by
    rw [raise_zero, Variable.raiseAbove_zero]
  unfold replace
  rw [hstate]
  -- after `j` binders the walk carries both the variable and the term raised by `j`
  refine traverse_agrees .unlessOverflow (fun j => (v.raiseAbove 0 j, u.raise j)) _
    (fun inner vs (hvs : vs.length < signedRange) => ?_)
    (fun inner w _ => Verdict.unlessOverflow.ok _) ht
  refine Verdict.unlessOverflow.bind (a := (v.raiseAbove 0 inner.length).raiseAbove 0 vs.length) ?_
    (Verdict.unlessOverflow.bind (shift_up_unlessOverflow hvs _) ?_)
  · rw [Shift.up_eq hvs]
    exact Variable.shift_raise_unlessOverflow _ _ _
  · rw [Variable.raiseAbove_raiseAbove, raise_raise]
    exact Verdict.unlessOverflow.ok _

theorem Respects.replace_atMost {scope : List String} {t : Term} (v : Variable) (u : Term)
    (ht : t.Respects .addressable scope) :
    Verdict.atMost.Holds (t.replace v u) (t.rewrite (replacing v u) 0) :=
  Verdict.atMost_of_unlessOverflow (ht.replace_unlessOverflow v u)

theorem Respects.raiseAbove_within {depth nesting : Nat} {t : Term} (threshold n : Nat)
    (ht : t.Respects (.within depth nesting) []) :
    (t.raiseAbove threshold n).Respects (.within (depth + n) nesting) [] := by
  refine Respects.rewrite ht ⟨fun inner v hv => ?_, fun _ _ h => h, fun _ _ h => h, fun _ h => h⟩
  rw [respects_var]
  exact ⟨Nat.lt_of_le_of_lt (v.depth_raiseAbove_le _ n) (Nat.add_lt_add_right hv.1 n), hv.2⟩

theorem Respects.raise_within {depth nesting : Nat} {t : Term} (n : Nat)
    (ht : t.Respects (.within depth nesting) []) :
    (t.raise n).Respects (.within (depth + n) nesting) [] := ht.raiseAbove_within 0 n

theorem Respects.replace_exactly {depth nesting depth' nesting' : Nat} {t u : Term} {v : Variable}
    (ht : t.Respects (.within depth nesting) []) (hu : u.Respects (.within depth' nesting') [])
    (hnesting : nesting < signedRange) (hnesting' : nesting' < wordRange)
    (hv : v.depth + nesting < wordRange) (hroom : depth' + nesting ≤ wordRange) :
    t.replace v u = .ok (t.rewrite (replacing v u) 0) := by
  have hstate : (v, u) = (v.raiseAbove 0 0, u.raise 0) := by
    rw [raise_zero, Variable.raiseAbove_zero]
  unfold replace
  rw [hstate]
  refine traverse_agrees .exactly (fun j => (v.raiseAbove 0 j, u.raise j)) _
    (fun inner vs (hvs : _ ≤ nesting) => ?_) (fun inner w _ => Verdict.exactly.ok _) ht
  rw [List.append_nil] at hvs
  refine Verdict.exactly.bind (a := (v.raiseAbove 0 inner.length).raiseAbove 0 vs.length) ?_
    (Verdict.exactly.bind ((hu.raise_within _).shift_up_exactly (by omega) (by omega) hnesting') ?_)
  · rw [Shift.up_eq (by omega)]
    refine Variable.shift_raise_exactly ?_
    have := v.depth_raiseAbove_le 0 inner.length
    omega
  · rw [Variable.raiseAbove_raiseAbove, raise_raise]
    exact Verdict.exactly.ok _

end Term

end IndexedLambda
