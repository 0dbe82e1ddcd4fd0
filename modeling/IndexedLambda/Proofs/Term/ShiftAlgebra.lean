import IndexedLambda.Proofs.Term.Displacement
/-!
# The algebra of shifts

Three laws tie shifts of one term together. Raising the depths above a threshold and lowering them
again, above the threshold raised as well, gives the term back. A second shift whose threshold lies in
the gap that the first one has opened only widens the gap. Two shifts at different thresholds may be
exchanged, if the higher threshold moves along with the lower shift.

The thresholds grow below binders, and they grow all alike, so each law is one about a single
occurrence (`Variable.lowerAbove_raiseAbove_gap`, `Variable.raiseAbove_raiseAbove_gap`,
`Variable.raiseAbove_comm`). An unassigned occurrence lies below every threshold and never moves.

Depths and thresholds are words. The laws are stated for walks that stay in range, and walks stay in
range where depths and nesting are small enough (`Term.Respects.inRange_shifts`).
-/

namespace IndexedLambda

namespace Variable

/-- What was raised lies above the gap, so lowering takes it back and nothing else. -/
theorem lowerAbove_raiseAbove_gap (c d : Nat) (v : Variable) :
    (v.raiseAbove c d).lowerAbove (c + d) d = v := by
  rcases Nat.lt_or_ge c v.depth with hlt | hge
  · rw [raiseAbove_of_lt hlt, lowerAbove_of_lt (by simp only; omega)]
    simp
  · rw [raiseAbove_of_le hge, lowerAbove_of_le (by omega)]

theorem raiseAbove_comm {c c' : Nat} (d e : Nat) (hle : c ≤ c') (v : Variable) :
    (v.raiseAbove c' e).raiseAbove c d = (v.raiseAbove c d).raiseAbove (c' + d) e := by
  rcases Nat.lt_or_ge c' v.depth with hhigh | hge
  · -- above both thresholds
    have hlow : c < v.depth := by omega
    rw [raiseAbove_of_lt hhigh, raiseAbove_of_lt hlow, raiseAbove_of_lt (by simp only; omega),
      raiseAbove_of_lt (by simp only; omega)]
    simp [Nat.add_right_comm]
  · rw [raiseAbove_of_le hge]
    rcases Nat.lt_or_ge c v.depth with hlow | hge'
    · rw [raiseAbove_of_lt hlow, raiseAbove_of_le (by simp only; omega)]
    · rw [raiseAbove_of_le hge', raiseAbove_of_le (by omega)]

end Variable

namespace Term

variable {t : Term} {c c' d e : Nat}

/-! ## On whole terms -/

theorem lowerAbove_raiseAbove (c d : Nat) (t : Term) : (t.raiseAbove c d).lowerAbove (c + d) d = t := by
  have hplace (j : Nat) (v : Variable) :
      (v.raiseAbove (c + j) d).lowerAbove (c + d + j) d = v := by
    rw [Nat.add_right_comm]
    exact v.lowerAbove_raiseAbove_gap (c + j) d
  simp only [raiseAbove, lowerAbove, rewrite_rewrite, rewrite_var, hplace, rewrite_id]

theorem raiseAbove_raiseAbove (e : Nat) (hle : c ≤ c') (hgap : c' ≤ c + d) (t : Term) :
    (t.raiseAbove c d).raiseAbove c' e = t.raiseAbove c (d + e) := by
  have hplace (j : Nat) (v : Variable) :
      (v.raiseAbove (c + j) d).raiseAbove (c' + j) e = v.raiseAbove (c + j) (d + e) :=
    v.raiseAbove_raiseAbove_gap e (by omega) (by omega)
  simp only [raiseAbove, rewrite_rewrite, rewrite_var, hplace]

theorem raiseAbove_comm (d e : Nat) (hle : c ≤ c') (t : Term) :
    (t.raiseAbove c' e).raiseAbove c d = (t.raiseAbove c d).raiseAbove (c' + d) e := by
  have hplace (j : Nat) (v : Variable) : (v.raiseAbove (c' + j) e).raiseAbove (c + j) d =
      (v.raiseAbove (c + j) d).raiseAbove (c' + d + j) e := by
    rw [Nat.add_right_comm c' d j]
    exact v.raiseAbove_comm d e (by omega)
  simp only [raiseAbove, rewrite_rewrite, rewrite_var, hplace]

/-! ## Staying in range -/

/-- Two walks in a row, of which the first one raises. -/
theorem Respects.inRange_shifts {depth nesting n : Nat} {s : Shift}
    (ht : t.Respects (.within depth nesting) []) (hdepth : depth + n ≤ wordRange)
    (hnesting : c + nesting < wordRange)
    (hsecond : ∀ u : Term, u.Respects (.within (depth + n) nesting) [] → ∃ w, u.shift s = .ok w) :
    InRange (t.shift ⟨c, n⟩ >>= fun u => u.shift s) := by
  obtain ⟨w, hw⟩ := hsecond _ (ht.raiseAbove_within c n)
  refine .of_ok (a := w) (Verdict.exactly.bind (ht.shift_raise_exactly hdepth hnesting) hw)

/-- **Shift algebra.** Raising by `d` above `c` and then lowering by `d` above `c + d` gives the term
back; no occurrence is ever lowered to zero or below. Raising by `d` above `c` and then by `e` above any
threshold from `c` to `c + d` is raising by `d + e` above `c`. Raising by `e` above `c'` and then by `d`
above some `c` up to `c'` is raising by `d` above `c` and then by `e` above `c' + d`. All this is so
unless a depth or a threshold becomes too large for a word, and none does if the depths of the term and
its nesting leave room. -/
theorem shift_algebra (t : Term) (c c' d e : Nat) :
    (InRange (t.shift ⟨c, d⟩ >>= fun u => u.shift ⟨c + d, -d⟩) →
      (t.shift ⟨c, d⟩ >>= fun u => u.shift ⟨c + d, -d⟩) = .ok t) ∧
    (c ≤ c' → c' ≤ c + d →
      AgreeInRange (t.shift ⟨c, d⟩ >>= fun u => u.shift ⟨c', e⟩) (t.shift ⟨c, (d + e : Nat)⟩)) ∧
    (c ≤ c' →
      AgreeInRange (t.shift ⟨c', e⟩ >>= fun u => u.shift ⟨c, d⟩)
        (t.shift ⟨c, d⟩ >>= fun u => u.shift ⟨c' + d, e⟩)) ∧
    ∀ depth nesting, t.Respects (.within depth nesting) [] → depth + d + e ≤ wordRange →
      c + d + nesting < wordRange → c' + d + nesting < wordRange →
      InRange (t.shift ⟨c, d⟩ >>= fun u => u.shift ⟨c + d, -d⟩) ∧
      InRange (t.shift ⟨c, d⟩ >>= fun u => u.shift ⟨c', e⟩) ∧
      InRange (t.shift ⟨c, (d + e : Nat)⟩) ∧
      InRange (t.shift ⟨c', e⟩ >>= fun u => u.shift ⟨c, d⟩) ∧
      InRange (t.shift ⟨c, d⟩ >>= fun u => u.shift ⟨c' + d, e⟩) := by
  have hraise (c n : Nat) (t : Term) := t.shift_raise_unlessOverflow c n
  refine ⟨fun hrange => hrange.eq_ok ?_, fun hle hgap => ?_, fun hle => ?_,
    fun depth nesting ht hdepth hc hc' => ?_⟩
  · have hback := (t.raiseAbove c d).shift_lower_unlessOverflow (Nat.le_add_left d c)
    rw [lowerAbove_raiseAbove] at hback
    exact Verdict.unlessOverflow.bind (hraise c d t) hback
  · have htwice := hraise c' e (t.raiseAbove c d)
    rw [raiseAbove_raiseAbove e hle hgap] at htwice
    exact .of_unlessOverflow (Verdict.unlessOverflow.bind (hraise c d t) htwice) (hraise c (d + e) t)
  · have hhigh := hraise c d (t.raiseAbove c' e)
    rw [raiseAbove_comm d e hle] at hhigh
    exact .of_unlessOverflow (Verdict.unlessOverflow.bind (hraise c' e t) hhigh)
      (Verdict.unlessOverflow.bind (hraise c d t) (hraise (c' + d) e _))
  · have hthen {n : Nat} {s : Shift} {c : Nat} := ht.inRange_shifts (c := c) (n := n) (s := s)
    refine ⟨hthen (by omega) (by omega) fun u hu => ?_, hthen (by omega) (by omega) fun u hu => ?_,
      .of_ok (ht.shift_raise_exactly (by omega) (by omega)),
      hthen (by omega) (by omega) fun u hu => ?_, hthen (by omega) (by omega) fun u hu => ?_⟩
    · exact ⟨_, hu.shift_lower_exactly (by omega) (Nat.le_add_left d c) hc⟩
    all_goals exact ⟨_, hu.shift_raise_exactly (by omega) (by omega)⟩

/-- Below two binders a threshold of `1` is one of `3`: `w` lies on it and stays, `v` lies right above it
and moves, and the unassigned `z` stays anyway. -/
theorem shift_algebra_at_threshold :
    let t (depth : Nat) : Term := .abs [⟨"x", 2⟩, ⟨"y", 1⟩]
      (.app (.app (.var ⟨"x", 2⟩) (.var ⟨"w", 3⟩)) (.list [.var ⟨"v", depth⟩, .var ⟨"z", 0⟩]))
    ((t 4).shift ⟨1, 2⟩ >>= fun u => u.shift ⟨3, -2⟩) = .ok (t 4) ∧
    (((t 4).shift ⟨1, 2⟩ >>= fun u => u.shift ⟨2, 3⟩) = .ok (t 9) ∧ (t 4).shift ⟨1, 5⟩ = .ok (t 9)) ∧
    ((t 4).shift ⟨2, 3⟩ >>= fun u => u.shift ⟨1, 2⟩) = .ok (t 6) ∧
      ((t 4).shift ⟨1, 2⟩ >>= fun u => u.shift ⟨4, 3⟩) = .ok (t 6) := by
  intro t
  obtain ⟨hback, hgap, hcomm, hroom⟩ := shift_algebra (t 4) 1 2 2 3
  obtain ⟨hrange, hrange', hsum, hhigh, hlow⟩ :=
    hroom 5 2 (by decide) (by decide) (by decide) (by decide)
  obtain ⟨u, hu, hu'⟩ := hgap (by decide) (by decide) hrange' hsum
  obtain ⟨w, hw, hw'⟩ := hcomm (by decide) hhigh hlow
  obtain rfl : t 9 = u := Except.ok.inj hu'
  obtain rfl : t 6 = w := Except.ok.inj hw
  exact ⟨hback hrange, ⟨hu, hu'⟩, hw, hw'⟩

end Term

end IndexedLambda
