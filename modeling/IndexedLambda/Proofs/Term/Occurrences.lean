import Mathlib.Data.List.Basic
import IndexedLambda.Proofs.Term.Eta
import IndexedLambda.Proofs.Term.SubstitutionLemma
/-!
# All walks mean the same occurrences

Shifting, listing, searching and replacing each adjust depths below binders in their own way: the
threshold grows, or the variable that is looked for moves, or the term that is put in moves.
`Term.occurrences` lists what all of them look at: the occurrences of a term from left to right, each with
the number of binders around it. Listing picks those above a threshold (`Term.deeperThan_agrees`), and
shifting moves just these (`Term.deeper_raiseAbove`), so what is listed afterwards is what was listed
before, moved. A term that has nothing to list is left alone by every shift
(`Term.Respects.shift_eq_self`).

Searching and replacing are tied together by the substitution for a single variable: replacing does
nothing to a term in which the search finds nothing, and it leaves nothing to be found.
-/

namespace IndexedLambda

/-- The threshold can be raised by the binders around every place. -/
def Discipline.countableFrom (threshold : Nat) : Discipline :=
  { Discipline.any with binders := fun scope vs => threshold + scope.length + vs.length < wordRange }

/-- Moreover, no occurrence lies deeper than the threshold. -/
def Discipline.enclosed (threshold : Nat) : Discipline :=
  { Discipline.countableFrom threshold with
    occurrence := fun scope v => v.depth ≤ threshold + scope.length }

namespace Term

/-! ## The list of occurrences -/

mutual
/-- The occurrences from left to right, each with the number of binders around it, the first `passed` of
which lie outside the term. -/
def occurrences (passed : Nat) : Term → List (Nat × Variable)
  | .var v => [(passed, v)]
  | .abs binders body => occurrences (passed + binders.length) body
  | .app l r => occurrences passed l ++ occurrences passed r
  | .const _ => []
  | .list elems => occurrencesList passed elems
  | .instr _ args => occurrencesList passed args
  | .define _ _ a b => occurrences passed a ++ occurrences passed b
  | .recur defs b => occurrencesDefs passed defs ++ occurrences passed b
/-- `occurrences` over all elements. -/
def occurrencesList (passed : Nat) : List Term → List (Nat × Variable)
  | [] => []
  | t :: ts => occurrences passed t ++ occurrencesList passed ts
/-- `occurrences` over all assignments. -/
def occurrencesDefs (passed : Nat) : List (String × Term) → List (Nat × Variable)
  | [] => []
  | (_, t) :: defs => occurrences passed t ++ occurrencesDefs passed defs
end

/-- Of a list of occurrences the variables that lie above a threshold. -/
def deeper (threshold : Nat) (places : List (Nat × Variable)) : List Variable :=
  (places.filter fun p => threshold + p.1 < p.2.depth).map (·.2)

variable {t s r : Term} {v : Variable} {scope : List String} {c depth nesting : Nat}

theorem deeper_append (threshold : Nat) (places places' : List (Nat × Variable)) :
    deeper threshold (places ++ places') = deeper threshold places ++ deeper threshold places' := by
  simp [deeper]

theorem deeper_singleton (threshold j : Nat) (v : Variable) :
    deeper threshold [(j, v)] = if threshold + j < v.depth then [v] else [] := by
  unfold deeper
  split <;> simp [*]

theorem occurrencesList_eq_flatMap (j : Nat) (ts : List Term) :
    occurrencesList j ts = ts.flatMap (occurrences j) := by
  induction ts with
  | nil => rfl
  | cons t ts ih => rw [occurrencesList, ih, List.flatMap_cons]

theorem occurrencesDefs_eq_flatMap (j : Nat) (defs : List (String × Term)) :
    occurrencesDefs j defs = defs.flatMap fun p => p.2.occurrences j := by
  induction defs with
  | nil => rfl
  | cons p defs ih => rw [occurrencesDefs, ih, List.flatMap_cons]

/-- A walk that puts variables in the place of variables keeps the places. -/
theorem occurrences_rewrite (f : Nat → Variable → Variable) (j : Nat) (t : Term) :
    (t.rewrite (fun j v => .var (f j v)) j).occurrences j =
      (t.occurrences j).map fun p => (p.1, f p.1 p.2) := by
  have hlist (j : Nat) (ts : List Term) (h : ∀ t ∈ ts,
      (t.rewrite (fun j v => .var (f j v)) j).occurrences j =
        (t.occurrences j).map fun p => (p.1, f p.1 p.2)) :
      occurrencesList j (ts.map (rewrite (fun j v => .var (f j v)) j)) =
        (occurrencesList j ts).map fun p => (p.1, f p.1 p.2) := by
    rw [occurrencesList_eq_flatMap, occurrencesList_eq_flatMap, List.flatMap_map, List.map_flatMap]
    exact List.flatMap_congr h
  induction t using induction_on generalizing j with
  | var v => simp [occurrences]
  | abs binders body ih => simp [occurrences, ih]
  | app l r ihl ihr => simp [occurrences, ihl, ihr]
  | const c => simp [occurrences]
  | list elems ih =>
      rw [rewrite_list, occurrences, occurrences]
      exact hlist j elems fun t ht => ih t ht j
  | instr head args ih =>
      rw [rewrite_instr, occurrences, occurrences]
      exact hlist j args fun t ht => ih t ht j
  | define form x a b iha ihb => simp [occurrences, iha, ihb]
  | recur defs b ihd ihb =>
      rw [rewrite_recur, occurrences, occurrences, List.map_append, ihb, occurrencesDefs_eq_flatMap,
        occurrencesDefs_eq_flatMap, List.flatMap_map, List.map_flatMap]
      congr 1
      exact List.flatMap_congr fun p hp => ihd p hp j

/-- What lies above the gap that a shift opens is what lay above the threshold, moved. -/
theorem deeper_raiseAbove (c d : Nat) (t : Term) :
    deeper (c + d) ((t.raiseAbove c d).occurrences 0) =
      (deeper c (t.occurrences 0)).map fun v => ⟨v.name, v.depth + d⟩ := by
  have habove (p : Nat × Variable) :
      c + d + p.1 < (p.2.raiseAbove (c + p.1) d).depth ↔ c + p.1 < p.2.depth := by
    rcases Nat.lt_or_ge (c + p.1) p.2.depth with hlt | hge
    · rw [Variable.raiseAbove_of_lt hlt]
      show c + d + p.1 < p.2.depth + d ↔ _
      omega
    · rw [Variable.raiseAbove_of_le hge]
      omega
  rw [raiseAbove, occurrences_rewrite, deeper, deeper, List.filter_map, List.map_map, List.map_map]
  have hfilter : ((fun p : Nat × Variable => decide (c + d + p.1 < p.2.depth)) ∘
      fun p : Nat × Variable => (p.1, p.2.raiseAbove (c + p.1) d)) =
        fun p => decide (c + p.1 < p.2.depth) := by
    funext p
    exact decide_eq_decide.mpr (habove p)
  rw [hfilter]
  refine List.map_congr_left fun p hp => ?_
  have hlt : c + p.1 < p.2.depth := by simpa using (List.mem_filter.mp hp).2
  exact Variable.raiseAbove_of_lt hlt

/-! ## Listing -/

section Listing

variable (verdict : Verdict) {d : Discipline}
  (henter : ∀ scope vs, d.binders scope vs →
    verdict.Holds (addWord (c + scope.length) vs.length) (c + (scope.length + vs.length)))

include henter

/-- Listing picks the occurrences above the threshold, if the threshold can be raised on the way. -/
theorem deeperThan_agrees (ht : t.Respects d scope) :
    verdict.Holds (t.deeperThan (c + scope.length)) (deeper c (t.occurrences scope.length)) := by
  -- of two parts the first one is listed first
  have happend {x y : Except Fault (List Variable)} {xs ys : List (Nat × Variable)}
      (hx : verdict.Holds x (deeper c xs)) (hy : verdict.Holds y (deeper c ys)) :
      verdict.Holds (do return (← x) ++ (← y)) (deeper c (xs ++ ys)) := by
    rw [deeper_append]
    exact verdict.bind hx (verdict.bind hy (verdict.ok _))
  have hlist (scope : List String) (ts : List Term) (h : ∀ t ∈ ts, verdict.Holds
      (t.deeperThan (c + scope.length)) (deeper c (t.occurrences scope.length))) :
      verdict.Holds (deeperThanList (c + scope.length) ts)
        (deeper c (occurrencesList scope.length ts)) := by
    induction ts with
    | nil => exact verdict.ok []
    | cons t ts ih =>
        rw [deeperThanList, occurrencesList]
        exact happend (h t (by simp)) (ih fun u hu => h u (by simp [hu]))
  have hdefs (scope : List String) (defs : List (String × Term)) (h : ∀ p ∈ defs, verdict.Holds
      (p.2.deeperThan (c + scope.length)) (deeper c (p.2.occurrences scope.length))) :
      verdict.Holds (deeperThanDefs (c + scope.length) defs)
        (deeper c (occurrencesDefs scope.length defs)) := by
    induction defs with
    | nil => exact verdict.ok []
    | cons p defs ih =>
        rw [deeperThanDefs, occurrencesDefs]
        exact happend (h p (by simp)) (ih fun q hq => h q (by simp [hq]))
  induction t using induction_on generalizing scope with
  | var v =>
      rw [deeperThan, occurrences, deeper_singleton]
      exact verdict.ok _
  | abs binders body ih =>
      obtain ⟨hbinders, hbody⟩ := respects_abs.mp ht
      have hinner := ih hbody
      rw [length_under] at hinner
      rw [deeperThan, occurrences]
      exact verdict.bind (henter scope binders hbinders) hinner
  | app l r ihl ihr =>
      obtain ⟨hl, hr⟩ := respects_app.mp ht
      rw [deeperThan, occurrences]
      exact happend (ihl hl) (ihr hr)
  | const x =>
      rw [deeperThan, occurrences]
      exact verdict.ok []
  | list elems ih =>
      rw [deeperThan, occurrences]
      exact hlist scope elems fun t hmem => ih t hmem (respects_list.mp ht t hmem)
  | instr head args ih =>
      rw [deeperThan, occurrences]
      exact hlist scope args fun t hmem => ih t hmem ((respects_instr.mp ht).2 t hmem)
  | define form x a b iha ihb =>
      obtain ⟨ha, hb⟩ := respects_define.mp ht
      rw [deeperThan, occurrences]
      exact happend (iha ha) (ihb hb)
  | recur defs b ihd ihb =>
      obtain ⟨-, hall, hb⟩ := respects_recur.mp ht
      rw [deeperThan, occurrences]
      exact happend (hdefs scope defs fun p hp => ihd p hp (hall p hp)) (ihb hb)

end Listing

theorem deeperThan_unlessOverflow (c : Nat) (t : Term) :
    Verdict.unlessOverflow.Holds (t.deeperThan c) (deeper c (t.occurrences 0)) := by
  refine deeperThan_agrees .unlessOverflow (fun scope vs _ => ?_) (respects_any [] t)
  rw [← Nat.add_assoc]
  exact addWord_unlessOverflow _ _

theorem Respects.deeperThan_exactly (ht : t.Respects (.within depth nesting) [])
    (hnesting : c + nesting < wordRange) : t.deeperThan c = .ok (deeper c (t.occurrences 0)) := by
  refine deeperThan_agrees .exactly (fun scope vs (hvs : _ ≤ nesting) => ?_) ht
  rw [← Nat.add_assoc]
  exact addWord_exactly (by omega)

/-- A term that can be shifted can be listed: both raise the same threshold. -/
theorem deeperThan_of_shift {delta : Int} (h : t.shift ⟨c, delta⟩ = .ok r) :
    t.deeperThan c = .ok (deeper c (t.occurrences 0)) := by
  have hcount : t.Respects (.countableFrom c) [] := by
    refine Respects.of_traverse_eq_ok (fun j => (⟨c + j, delta⟩ : Shift)) (fun scope vs s hs => ?_)
      (fun _ _ _ _ => trivial) (fun _ _ => trivial) (fun _ => trivial) h
    obtain ⟨n, hn, hs⟩ := bind_eq_ok.mp hs
    obtain ⟨hroom, rfl⟩ := addWord_eq_ok_iff.mp hn
    refine ⟨hroom, ?_⟩
    rw [← Nat.add_assoc]
    exact (Except.ok.inj hs).symm
  refine deeperThan_agrees .exactly (fun scope vs (hvs : _ < wordRange) => ?_) hcount
  rw [← Nat.add_assoc]
  exact addWord_exactly hvs

/-! ## Nothing to list -/

theorem append_eq_ok_nil {α : Type} {x y : Except Fault (List α)} :
    (do return (← x) ++ (← y)) = .ok [] ↔ x = .ok [] ∧ y = .ok [] := by
  constructor
  · intro h
    obtain ⟨xs, hx, h⟩ := bind_eq_ok.mp h
    obtain ⟨ys, hy, h⟩ := bind_eq_ok.mp h
    obtain ⟨rfl, rfl⟩ := List.append_eq_nil_iff.mp (Except.ok.inj h)
    exact ⟨hx, hy⟩
  · rintro ⟨rfl, rfl⟩
    rfl

/-- When nothing was listed, the threshold could be raised everywhere and nothing lies deeper. -/
theorem Respects.of_deeperThan_eq_nil (h : t.deeperThan (c + scope.length) = .ok []) :
    t.Respects (.enclosed c) scope := by
  have hlist (n : Nat) (ts : List Term) (h : deeperThanList n ts = .ok []) :
      ∀ t ∈ ts, t.deeperThan n = .ok [] := by
    induction ts with
    | nil => simp
    | cons t ts ih =>
        rw [deeperThanList, append_eq_ok_nil] at h
        exact List.forall_mem_cons.mpr ⟨h.1, ih h.2⟩
  have hdefs (n : Nat) (defs : List (String × Term)) (h : deeperThanDefs n defs = .ok []) :
      ∀ p ∈ defs, p.2.deeperThan n = .ok [] := by
    induction defs with
    | nil => simp
    | cons p defs ih =>
        rw [deeperThanDefs, append_eq_ok_nil] at h
        exact List.forall_mem_cons.mpr ⟨h.1, ih h.2⟩
  induction t using induction_on generalizing scope with
  | var v =>
      rw [deeperThan] at h
      show v.depth ≤ c + scope.length
      by_cases hlt : v.depth > c + scope.length
      · rw [if_pos hlt] at h
        cases h
      · omega
  | abs binders body ih =>
      rw [deeperThan] at h
      obtain ⟨n, hn, hbody⟩ := bind_eq_ok.mp h
      obtain ⟨hroom, rfl⟩ := addWord_eq_ok_iff.mp hn
      rw [Nat.add_assoc, ← length_under] at hbody
      exact respects_abs.mpr ⟨hroom, ih hbody⟩
  | app l r ihl ihr =>
      rw [deeperThan, append_eq_ok_nil] at h
      exact respects_app.mpr ⟨ihl h.1, ihr h.2⟩
  | const x => exact respects_const
  | list elems ih =>
      rw [deeperThan] at h
      exact respects_list.mpr fun t hmem => ih t hmem (hlist _ elems h t hmem)
  | instr head args ih =>
      rw [deeperThan] at h
      exact respects_instr.mpr ⟨trivial, fun t hmem => ih t hmem (hlist _ args h t hmem)⟩
  | define form x a b iha ihb =>
      rw [deeperThan, append_eq_ok_nil] at h
      exact respects_define.mpr ⟨iha h.1, ihb h.2⟩
  | recur defs b ihd ihb =>
      rw [deeperThan, append_eq_ok_nil] at h
      exact respects_recur.mpr
        ⟨trivial, fun p hp => ihd p hp (hdefs _ defs h.1 p hp), ihb h.2⟩

/-- Where nothing lies deeper than the threshold there is nothing to move. -/
theorem Respects.shift_eq_self (ht : t.Respects (.enclosed c) []) (delta : Int) :
    t.shift ⟨c, delta⟩ = .ok t := by
  have hwalk : t.shift ⟨c, delta⟩ = .ok (t.rewrite (fun _ v => .var v) 0) := by
    refine traverse_agrees .exactly (fun j => (⟨c + j, delta⟩ : Shift)) _
      (fun inner vs (hvs : _ < wordRange) => ?_) (fun inner v (hv : _ ≤ _) => ?_) ht
    · rw [List.append_nil] at hvs
      rw [← Nat.add_assoc]
      exact Shift.under_exactly hvs
    · rw [List.append_nil] at hv
      have hstays : v.shift ⟨c + inner.length, delta⟩ = .ok v :=
        Variable.shift_exactly (fun _ => rfl) fun hlt => absurd hv (Nat.not_le.mpr hlt)
      exact Verdict.exactly.bind hstays (Verdict.exactly.ok _)
  rw [hwalk, rewrite_id]

/-! ## Searching and replacing -/

/-- Replacing a variable that is not found changes nothing. -/
theorem Addressable.replace_eq_self (ht : t.Addressable) (habsent : t.mentions v = .ok false)
    (hrange : InRange (t.replace v s)) : t.replace v s = .ok t := by
  have hreplace := ht.replace_unlessOverflow v s
  rw [substFree_single_of_unused s (ht.not_uses habsent)] at hreplace
  exact hrange.eq_ok hreplace

/-- After it has been replaced by a term in which it is not found, a variable is not found. -/
theorem Addressable.mentions_replace (ht : t.Addressable) (hs : s.Addressable)
    (habsent : s.mentions v = .ok false) (hr : t.replace v s = .ok r)
    (hrange : InRange (r.mentions v)) : r.mentions v = .ok false := by
  obtain rfl := Verdict.atMost_of_unlessOverflow (ht.replace_unlessOverflow v s) r hr
  obtain ⟨found, hfound, hiff⟩ := (ht.replacing hs v).mentions_unlessOverflow v
  have hgone := not_uses_substFree_single (t := t) (hs.not_uses habsent)
  rw [hiff.mpr (Classical.not_not.mp hgone)] at hfound
  exact hrange.eq_ok hfound

/-- **The walks agree.** What is listed above `c + d` after raising by `d` above `c` is what is listed
above `c`, each depth raised by `d`, in the same order; when nothing is listed above `c`, raising above
`c` changes nothing. Replacing a variable that is not found changes nothing, and a variable that is not
found in what is put in its place is not found afterwards. Depths and thresholds are words: where the
walks need a larger number they stop, except that a term with nothing to list is always left alone.
There is room if depths and nesting are small enough. -/
theorem walks_agree (t : Term) :
    (∀ c d : Nat, InRange (t.shift ⟨c, d⟩ >>= fun u => u.deeperThan (c + d)) →
      ∃ vs, t.deeperThan c = .ok vs ∧ (t.shift ⟨c, d⟩ >>= fun u => u.deeperThan (c + d)) =
        .ok (vs.map fun v => ⟨v.name, v.depth + d⟩)) ∧
    (∀ c d : Nat, t.deeperThan c = .ok [] → t.shift ⟨c, d⟩ = .ok t) ∧
    (∀ v s, t.Addressable → t.mentions v = .ok false → InRange (t.replace v s) →
      t.replace v s = .ok t) ∧
    (∀ v s r, t.Addressable → s.Addressable → s.mentions v = .ok false → t.replace v s = .ok r →
      InRange (r.mentions v) → r.mentions v = .ok false) ∧
    ∀ depth nesting, t.Respects (.within depth nesting) [] →
      (∀ c d, depth + d ≤ wordRange → c + d + nesting < wordRange →
        InRange (t.shift ⟨c, d⟩ >>= fun u => u.deeperThan (c + d))) ∧
      ∀ v s, s.Respects (.within depth nesting) [] → v.depth < depth → 2 * nesting < signedRange →
        depth + 2 * nesting ≤ wordRange → ∃ r, t.replace v s = .ok r ∧ InRange (r.mentions v) := by
  refine ⟨fun c d hrange => ?_, fun c d hnil => ?_, fun v s ht habsent hrange => ?_,
    fun v s r ht hs habsent hr hrange => ?_, fun depth nesting ht => ⟨fun c d hdepth hc => ?_,
    fun v s hs hv hnesting hdepth => ?_⟩⟩
  · have hlisted := (t.raiseAbove c d).deeperThan_unlessOverflow (c + d)
    rw [deeper_raiseAbove] at hlisted
    have hboth := hrange.eq_ok
      (Verdict.unlessOverflow.bind (t.shift_raise_unlessOverflow c d) hlisted)
    obtain ⟨u, hu, -⟩ := bind_eq_ok.mp hboth
    exact ⟨_, deeperThan_of_shift hu, hboth⟩
  · have henclosed : t.Respects (.enclosed c) [] := Respects.of_deeperThan_eq_nil hnil
    exact henclosed.shift_eq_self d
  · exact ht.replace_eq_self habsent hrange
  · exact ht.mentions_replace hs habsent hr hrange
  · have hlisted := (ht.raiseAbove_within c d).deeperThan_exactly hc
    exact .of_ok (Verdict.exactly.bind (ht.shift_raise_exactly hdepth (by omega)) hlisted)
  · have hwords : signedRange + signedRange = wordRange := rfl
    have hreplace := ht.replace_exactly hs (v := v) (by omega) (by omega) (by omega) (by omega)
    obtain ⟨found, hfound, -⟩ := (ht.replacing_within (v := v) hs).searches_mentions (v := v)
      (by omega) (by omega)
    exact ⟨_, hreplace, .of_ok hfound⟩

/-- In `λx y. [x, w, v]` with `w` and `v` at depths `1` and `2` outside: above `1` only `v` is listed,
above `2` nothing. A variable `v` at depth `1` is not found, and the one at depth `2` is gone once
`λu. u w` is in its place. -/
theorem walks_agree_below_binders :
    let t : Term := .abs [⟨"x", 2⟩, ⟨"y", 1⟩]
      (.list [.var ⟨"x", 2⟩, .var ⟨"w", 3⟩, .var ⟨"v", 4⟩])
    let s : Term := .abs [⟨"u", 1⟩] (.app (.var ⟨"u", 1⟩) (.var ⟨"w", 2⟩))
    (t.shift ⟨1, (5 : Nat)⟩ >>= fun u => u.deeperThan (1 + 5)) = .ok [⟨"v", 9⟩] ∧
    t.shift ⟨2, (5 : Nat)⟩ = .ok t ∧
    t.replace ⟨"v", 1⟩ s = .ok t ∧
    ∃ r, t.replace ⟨"v", 2⟩ s = .ok r ∧ r.mentions ⟨"v", 2⟩ = .ok false := by
  intro t s
  obtain ⟨hlist, hfixed, habsent, hgone, hroom⟩ := walks_agree t
  obtain ⟨hshift, hreplace⟩ := hroom 5 2 (by decide)
  obtain ⟨vs, hvs, hraised⟩ := hlist 1 5 (hshift 1 5 (by decide) (by decide))
  obtain rfl : [⟨"v", 4⟩] = vs := Except.ok.inj hvs
  have hr (v : Variable) (hv : v.depth < 5) : ∃ r, t.replace v s = .ok r ∧ InRange (r.mentions v) :=
    hreplace v s (by decide) hv (by decide) (by decide)
  obtain ⟨r, hr₁, -⟩ := hr ⟨"v", 1⟩ (by decide)
  obtain ⟨r', hr₂, hrange⟩ := hr ⟨"v", 2⟩ (by decide)
  exact ⟨hraised, hfixed 2 5 rfl, habsent ⟨"v", 1⟩ s (by decide) rfl (.of_ok hr₁),
    r', hr₂, hgone ⟨"v", 2⟩ s r' (by decide) (by decide) rfl hr₂ hrange⟩

/-- At the last depths the walks part. What is listed cannot be raised. Replacing in `λz. z` a variable
that is not there still moves what would be put in. In `λz. λu. u` the search moves the variable past two
binders, although neither replacing nor the search in what was put in moved it past more than one. -/
theorem walks_stopped_at_last_depth :
    let last : Nat := 18446744073709551615
    let fault : Fault := .leavesFreeRange last 0 1
    let free (x : String) (depth : Nat) : Term := .var ⟨x, depth⟩
    let identity (x : String) : Term := .abs [⟨x, 1⟩] (.var ⟨x, 1⟩)
    ((free "y" last).deeperThan 0 = .ok [⟨"y", last⟩] ∧
      (free "y" last).shift ⟨0, (1 : Nat)⟩ = .error fault) ∧
    ((identity "z").mentions ⟨"x", 1⟩ = .ok false ∧
      (identity "z").replace ⟨"x", 1⟩ (free "y" last) = .error fault) ∧
    (identity "u").mentions ⟨"x", last - 1⟩ = .ok false ∧
      (Term.abs [⟨"z", 1⟩] (free "x" last)).replace ⟨"x", last - 1⟩ (identity "u") =
        .ok (.abs [⟨"z", 1⟩] (identity "u")) ∧
      (Term.abs [⟨"z", 1⟩] (identity "u")).mentions ⟨"x", last - 1⟩ = .error fault := by
  exact ⟨⟨rfl, rfl⟩, ⟨rfl, rfl⟩, rfl, rfl, rfl⟩

end Term

end IndexedLambda
