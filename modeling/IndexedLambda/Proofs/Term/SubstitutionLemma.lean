import IndexedLambda.Proofs.Term.Composition
import IndexedLambda.Proofs.Term.Feeding
/-!
# The substitution lemma

To put a term in the place of one variable is a substitution for free variables that leaves all others
alone (`Term.single`). Two replacements in a row therefore compose to one substitution, and so do the two
replacements in the other order; the substitution lemma says that these are the same, which has to be
checked for single variables only. Where a variable does not occur, replacing it changes nothing, and once
it has been replaced by a term in which it does not occur, it is gone.

Replacing shifts the variable and the inserted term at every binder, so it may run out of depths. The laws
hold for all replacements that stay in range, and there is room where depths and nesting are small enough
(`Term.Respects.replacing_within`).
-/

namespace IndexedLambda.Term

variable {t u a b : Term} {v w x y : Variable} {depth nesting nesting' : Nat}

/-! ## One variable -/

/-- The substitution for a single variable. -/
def single (v : Variable) (u : Term) (w : Variable) : Term := if w = v then u else .var w

theorem single_self (v : Variable) (u : Term) : single v u v = u := if_pos rfl

theorem single_other (h : w ≠ v) : single v u w = .var w := if_neg h

/-- An occurrence under `j` binders stands for the variable exactly if it is the variable moved past
them. -/
theorem replacing_eq_substFreeAt (v : Variable) (u : Term) :
    replacing v u = substFreeAt (single v u) := by
  funext j w
  by_cases hbound : 1 ≤ w.depth ∧ w.depth ≤ j
  · have hother : w ≠ v.raiseAbove 0 j := by
      rintro rfl
      exact v.raiseAbove_free j hbound
    rw [substFreeAt_of_bound hbound.1 hbound.2, replacing, if_neg hother]
  · have houtside := Variable.raiseAbove_lowerAbove hbound
    rw [substFreeAt, if_neg hbound, replacing]
    by_cases hhit : w = v.raiseAbove 0 j
    · rw [if_pos hhit, hhit, Variable.lowerAbove_raiseAbove, single_self]
    · have hmiss : w.lowerAbove 0 j ≠ v := by
        rintro rfl
        exact hhit houtside.symm
      rw [if_neg hhit, single_other hmiss, raise_var, houtside]

theorem rewrite_replacing (t : Term) (v : Variable) (u : Term) :
    t.rewrite (replacing v u) 0 = t.substFree (single v u) := by
  rw [replacing_eq_substFreeAt, substFree]

theorem substFree_substFree (ρ ρ' : Variable → Term) (t : Term) :
    (t.substFree ρ).substFree ρ' = t.substFree fun v => (ρ v).substFree ρ' :=
  substFreeAt_comp t

/-- A variable does not occur exactly if nothing changes when something else is put in its place. -/
theorem substFree_single_eq_self_iff (hu : u ≠ .var v) :
    t.substFree (single v u) = t ↔ ¬t.Uses v := by
  rw [substFree_eq_self_iff]
  constructor
  · intro hfixed huses
    have hv := hfixed v huses
    rw [single_self] at hv
    exact hu hv
  · intro hunused w huses
    refine single_other ?_
    rintro rfl
    exact hunused huses

theorem substFree_single_of_unused (u : Term) (h : ¬t.Uses v) : t.substFree (single v u) = t := by
  by_cases hu : u = .var v
  · refine substFree_eq_self_iff.mpr fun w _ => ?_
    by_cases hw : w = v
    · rw [hw, single_self, hu]
    · exact single_other hw
  · exact (substFree_single_eq_self_iff hu).mpr h

/-- A variable that is replaced by a term without it is gone. -/
theorem not_uses_substFree_single (h : ¬u.Uses v) : ¬(t.substFree (single v u)).Uses v := by
  -- a constant is not the variable, so it may serve to test for it
  have htest : Term.const "" ≠ .var v := by simp
  rw [← substFree_single_eq_self_iff htest, substFree_substFree]
  congr 1
  funext w
  by_cases hw : w = v
  · rw [hw, single_self, substFree_single_of_unused _ h]
  · rw [single_other hw, substFree_var, single_other hw]

/-- Two substitutions for different variables may be exchanged, if the first is carried out within the
term that the second puts in, and the variable of the second does not occur in what the first puts in. -/
theorem substFree_single_comm (hne : x ≠ y) (hb : ¬b.Uses x) (t a : Term) :
    (t.substFree (single x a)).substFree (single y b) =
      (t.substFree (single y b)).substFree (single x (a.substFree (single y b))) := by
  rw [substFree_substFree, substFree_substFree]
  congr 1
  funext w
  by_cases hx : w = x
  · subst hx
    rw [single_self, single_other hne, substFree_var, single_self]
  · by_cases hy : w = y
    · subst hy
      rw [single_other hx, substFree_var, single_self, substFree_single_of_unused _ hb]
    · rw [single_other hx, single_other hy, substFree_var, substFree_var, single_other hx,
        single_other hy]

/-! ## Replacing -/

theorem Addressable.not_uses (ht : t.Addressable) (h : t.mentions v = .ok false) : ¬t.Uses v :=
  fun huses => huses (Respects.of_mentions_eq_false ht h)

theorem Addressable.replacing (ht : t.Addressable) (hu : u.Addressable) (v : Variable) :
    (t.substFree (single v u)).Addressable := by
  rw [← rewrite_replacing]
  exact Respects.replacing Discipline.addressable_portable v ht hu

theorem Addressable.replace_unlessOverflow (ht : t.Addressable) (v : Variable) (u : Term) :
    Verdict.unlessOverflow.Holds (t.replace v u) (t.substFree (single v u)) := by
  rw [← rewrite_replacing]
  exact Respects.replace_unlessOverflow v u ht

/-- Depths grow by the binders around a place, and nestings add up. -/
theorem Respects.replacing_within (ht : t.Respects (.within depth nesting) [])
    (hu : u.Respects (.within depth nesting') []) :
    (t.rewrite (Term.replacing v u) 0).Respects (.within (depth + nesting) (nesting + nesting')) [] := by
  refine Respects.rewrite ht ⟨fun inner w hw => ?_, fun inner vs (hvs : _ ≤ nesting) => ?_,
    fun _ _ h => h, fun _ h => h⟩
  · obtain ⟨hdepth, hinner⟩ := hw
    rw [List.append_nil] at hinner ⊢
    unfold Term.replacing
    split
    · refine (hu.raise_within inner.length).transfer ⟨fun i z hz => ?_,
        fun i vs (hvs : _ ≤ nesting') => ?_, fun _ _ h => h, fun _ h => h⟩
      · obtain ⟨hz, hi⟩ := hz
        rw [List.append_nil] at hi
        refine respects_var.mpr ⟨by omega, ?_⟩
        rw [List.length_append]
        omega
      · rw [List.append_nil] at hvs
        show (i ++ inner).length + vs.length ≤ nesting + nesting'
        rw [List.length_append]
        omega
    · exact respects_var.mpr ⟨by omega, by omega⟩
  · exact Nat.le_trans hvs (Nat.le_add_right nesting nesting')

/-- **Substitution lemma.** To put `a` in the place of `x` and then `b` in the place of `y` is to put `b`
in the place of `y` and then, in the place of `x`, what `a` becomes when `b` is put in the place of `y` in
it. The variables are different, `x` is not found in `b`, and a signed word counts the binders of every
abstraction. This is so unless a depth becomes too large for a word, and none does if depths and nesting
leave room. -/
theorem replace_replace {t a b : Term} {x y : Variable} (hne : x ≠ y) (hb : b.mentions x = .ok false)
    (ht : t.Addressable) (ha : a.Addressable) (hbsize : b.Addressable) :
    AgreeInRange (t.replace x a >>= fun u => u.replace y b)
      (a.replace y b >>= fun a' => t.replace y b >>= fun u => u.replace x a') ∧
    ∀ depth nesting, t.Respects (.within depth nesting) [] → a.Respects (.within depth nesting) [] →
      b.Respects (.within depth nesting) [] → x.depth < depth → y.depth < depth →
      2 * nesting < signedRange → depth + 3 * nesting ≤ wordRange →
      InRange (t.replace x a >>= fun u => u.replace y b) ∧
      InRange (a.replace y b >>= fun a' => t.replace y b >>= fun u => u.replace x a') := by
  constructor
  · have hleft : Verdict.unlessOverflow.Holds (t.replace x a >>= fun u => u.replace y b)
        ((t.substFree (single x a)).substFree (single y b)) :=
      Verdict.unlessOverflow.bind (ht.replace_unlessOverflow x a)
        ((ht.replacing ha x).replace_unlessOverflow y b)
    rw [substFree_single_comm hne (hbsize.not_uses hb)] at hleft
    refine .of_unlessOverflow hleft ?_
    exact Verdict.unlessOverflow.bind (ha.replace_unlessOverflow y b)
      (Verdict.unlessOverflow.bind (ht.replace_unlessOverflow y b)
        ((ht.replacing hbsize y).replace_unlessOverflow x _))
  · intro depth nesting htroom haroom hbroom hx hy hnesting hdepth
    have hwords : signedRange + signedRange = wordRange := rfl
    -- the first replacements find terms as they are, the second ones find terms twice as nested
    have hfirst {r u : Term} {v : Variable} (hr : r.Respects (.within depth nesting) [])
        (hu : u.Respects (.within depth nesting) []) (hv : v.depth < depth) :
        r.replace v u = .ok (r.rewrite (replacing v u) 0) :=
      hr.replace_exactly hu (by omega) (by omega) (by omega) (by omega)
    have hsecond {r u : Term} {v : Variable} {depth' nesting' : Nat}
        (hr : r.Respects (.within (depth + nesting) (nesting + nesting)) [])
        (hu : u.Respects (.within depth' nesting') []) (hroom : depth' + 2 * nesting ≤ wordRange)
        (hnesting' : nesting' < wordRange) (hv : v.depth < depth) :
        r.replace v u = .ok (r.rewrite (replacing v u) 0) :=
      hr.replace_exactly hu (by omega) hnesting' (by omega) (by omega)
    constructor
    · have hagain := hsecond (htroom.replacing_within (v := x) haroom) hbroom (by omega) (by omega) hy
      exact .of_ok (Verdict.exactly.bind (hfirst htroom haroom hx) hagain)
    · have hagain := hsecond (htroom.replacing_within (v := y) hbroom)
        (haroom.replacing_within (v := y) hbroom) (by omega) (by omega) hx
      exact .of_ok (Verdict.exactly.bind (hfirst haroom hbroom hy)
        (Verdict.exactly.bind (hfirst htroom hbroom hy) hagain))

/-- In `λz. v v'`, where `v` and `v'` have one name and lie at depths `1` and `2` outside: `v` becomes
`λp q. q v'`, and `v'` becomes `c v''`, also within what `v` has become. -/
theorem replace_replace_of_one_name :
    let v (depth : Nat) : Term := .var ⟨"v", depth⟩
    let t : Term := .abs [⟨"z", 1⟩] (.app (v 2) (v 3))
    let a : Term := .abs [⟨"p", 2⟩, ⟨"q", 1⟩] (.app (.var ⟨"q", 1⟩) (v 4))
    let b : Term := .app (.const "c") (v 3)
    let result : Term := .abs [⟨"z", 1⟩]
      (.app (.abs [⟨"p", 2⟩, ⟨"q", 1⟩] (.app (.var ⟨"q", 1⟩) (.app (.const "c") (v 6))))
        (.app (.const "c") (v 4)))
    (t.replace ⟨"v", 1⟩ a >>= fun u => u.replace ⟨"v", 2⟩ b) = .ok result ∧
    (a.replace ⟨"v", 2⟩ b >>= fun a' => t.replace ⟨"v", 2⟩ b >>= fun u => u.replace ⟨"v", 1⟩ a') =
      .ok result := by
  intro v t a b result
  obtain ⟨hagree, hroom⟩ := @replace_replace t a b ⟨"v", 1⟩ ⟨"v", 2⟩ (by decide) rfl (by decide)
    (by decide) (by decide)
  obtain ⟨hleft, hright⟩ := hroom 5 2 (by decide) (by decide) (by decide) (by decide) (by decide)
    (by decide) (by decide)
  obtain ⟨r, hr, hr'⟩ := hagree hleft hright
  obtain rfl : result = r := Except.ok.inj hr
  exact ⟨hr, hr'⟩

end IndexedLambda.Term
