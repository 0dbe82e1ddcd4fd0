import IndexedLambda.Proofs.Term.WellFormed
/-!
# Contraction is substitution

One step of an abstraction on an argument raises the argument, replaces the outermost binder by name and
depth, and lowers what is left. On well-formed terms this is the substitution that looks at depths
alone, in one walk over the body (`Term.instantiate`), and it keeps every portable discipline.
An eta step keeps terms well formed as well: that the variable does not occur by name and depth means
that nothing points to its binder.
-/

namespace IndexedLambda

/-- Well formed, with lists of binders that can be counted. -/
def Discipline.sound : Discipline := Discipline.wellFormed.and .addressable

instance : Discipline.sound.Decides := inferInstanceAs (Discipline.wellFormed.and .addressable).Decides

theorem Discipline.sound_portable : Discipline.sound.Portable :=
  Discipline.wellFormed_portable.and Discipline.addressable_portable

namespace Term

/-- Under `n` remaining binders and `j` further ones: the occurrence that points to the binder just
outside becomes the argument, and those that point further out come one closer. -/
def instantiating (n : Nat) (arg : Term) (j : Nat) (v : Variable) : Term :=
  if v.depth = n + 1 + j then arg.raise (n + j)
  else if n + 1 + j < v.depth then .var ⟨v.name, v.depth - 1⟩
  else .var v

/-- The argument in the place of the outermost binder, with `n` binders remaining. -/
def instantiate (body : Term) (n : Nat) (arg : Term) : Term := body.rewrite (instantiating n arg) 0

variable {d : Discipline} {scope : List String} {x : Variable} {rest : List Variable}
  {body arg result : Term} {flag : Bool}

/-! ## The step -/

theorem numbered_head {vs : List Variable} {v : Variable}
    (h : Discipline.wellFormed.binders scope (v :: vs)) : v.depth = vs.length + 1 := by
  have hhead := (List.cons.inj h.2).1
  rw [hhead, List.length_map]

theorem name_of_points_outermost {inner : List String} {v : Variable}
    (hv : Discipline.wellFormed.occurrence (inner ++ under (x :: rest) scope) v)
    (hdepth : v.depth = rest.length + 1 + inner.length) : v.name = x.name := by
  have hname := hv (by omega) (by simp only [List.length_append, length_under, List.length_cons]; omega)
  have hindex : v.depth - 1 - inner.length = (rest.map (·.name)).reverse.length := by
    rw [List.length_reverse, List.length_map]
    omega
  rw [List.getElem?_append_right (by omega), under_cons, under,
    List.getElem?_append_right (by omega), hindex, Nat.sub_self] at hname
  exact (Option.some.inj hname).symm

theorem instantiating_of_lt {n j : Nat} {v : Variable} (h : v.depth < n + 1 + j) :
    instantiating n arg j v = .var v := by
  unfold instantiating
  rw [if_neg (by omega), if_neg (by omega)]

theorem instantiating_of_gt {n j : Nat} {v : Variable} (h : n + 1 + j < v.depth) :
    instantiating n arg j v = .var ⟨v.name, v.depth - 1⟩ := by
  unfold instantiating
  rw [if_neg (by omega), if_pos h]

/-- What has been raised past a binder does not point to it. A rewriting that only closes the gap which
the binder leaves gives the term raised one less. -/
theorem rewrite_raise_past {visit : Nat → Variable → Term} {n : Nat}
    (hbelow : ∀ i v, v.depth < n + 1 + i → visit i v = .var v)
    (habove : ∀ i v, n + 1 + i < v.depth → visit i v = .var ⟨v.name, v.depth - 1⟩) (j : Nat)
    (t : Term) : (t.raise (n + 1 + j)).rewrite visit j = t.raise (n + j) := by
  rw [rewrite_raise]
  unfold raise raiseAbove
  congr 1
  funext i v
  rw [Nat.zero_add]
  by_cases hle : v.depth ≤ i
  · rw [Variable.raiseAbove_of_le hle, Variable.raiseAbove_of_le hle, hbelow _ _ (by omega)]
  · rw [Variable.raiseAbove_of_lt (by omega), Variable.raiseAbove_of_lt (by omega),
      habove _ _ (by dsimp only; omega)]
    congr 2
    dsimp only
    omega

/-- Replacing the outermost binder and lowering the rest is one walk. -/
theorem lower_replacing (hf : (Term.abs (x :: rest) body).Respects .wellFormed scope) :
    (body.rewrite (replacing x (arg.raise (rest.length + 1))) 0).lowerAbove (rest.length + 1) 1 =
      body.instantiate rest.length arg := by
  obtain ⟨hbinders, hbody⟩ := respects_abs.mp hf
  have hx := numbered_head hbinders
  unfold lowerAbove instantiate
  rw [rewrite_rewrite]
  refine Respects.rewrite_congr hbody fun inner v hv => ?_
  have hmoved : x.raiseAbove 0 inner.length = ⟨x.name, rest.length + 1 + inner.length⟩ := by
    rw [Variable.raiseAbove_of_lt (by omega), hx]
  unfold replacing instantiating
  rw [hmoved]
  -- names and depths agree, so looking for both finds what looking for the depth finds
  by_cases hdepth : v.depth = rest.length + 1 + inner.length
  · have hvx : v = ⟨x.name, rest.length + 1 + inner.length⟩ := by
      rw [← name_of_points_outermost hv hdepth, ← hdepth]
    rw [if_pos hvx, if_pos hdepth, raise_raise]
    exact rewrite_raise_past (fun i v h => by rw [Variable.lowerAbove_of_le (by omega)])
      (fun i v h => by rw [Variable.lowerAbove_of_lt h]) inner.length arg
  · rw [if_neg (fun hvx => hdepth (by rw [hvx])), if_neg hdepth, rewrite_var]
    by_cases hlt : rest.length + 1 + inner.length < v.depth
    · rw [if_pos hlt, Variable.lowerAbove_of_lt hlt]
    · rw [if_neg hlt, Variable.lowerAbove_of_le (by omega)]

/-- The part of a step before the `n` binders that remain are put back: the body with the argument in
it, and whether a redex has come up. -/
def contractBody (v : Variable) (n : Nat) (body arg : Term) : Except Fault (Term × Bool) := do
  let inserted ← body.replace v (← arg.shift (.up (n + 1)))
  let result ← inserted.shift ⟨n + 1, -1⟩
  return (result, exposes body inserted)

theorem contract_eq_contractBody (v : Variable) (rest : List Variable) (body arg : Term) :
    contract (v :: rest) body arg = do
      let step ← contractBody v rest.length body arg
      return (wrap rest step.1, step.2) := by
  simp only [contract, contractBody, bind_assoc, pure_bind, List.length_cons]

/-- The argument goes in by the one substitution, and the flag is read off the walk that replaces, unless
a word becomes too large. -/
theorem contractBody_unlessOverflow (hf : (Term.abs (x :: rest) body).Respects .sound scope)
    (arg : Term) : Verdict.unlessOverflow.Holds (contractBody x rest.length body arg)
      (body.instantiate rest.length arg,
        exposes body (body.rewrite (replacing x (arg.raise (rest.length + 1))) 0)) := by
  obtain ⟨hwf, hsize⟩ := respects_and.mp hf
  obtain ⟨hlength, hbody⟩ := respects_abs.mp hsize
  refine Verdict.unlessOverflow.bind (shift_up_unlessOverflow hlength arg) ?_
  refine Verdict.unlessOverflow.bind (hbody.replace_unlessOverflow x _) ?_
  rw [← lower_replacing hwf]
  exact Verdict.unlessOverflow.bind (shift_lower_unlessOverflow (Nat.le_add_left 1 rest.length) _)
    (Verdict.unlessOverflow.ok _)

/-- What a step gives, if it gives something: the substituted body under the remaining binders, and
whether putting the argument in place has exposed a redex. -/
theorem contract_eq_ok (hf : (Term.abs (x :: rest) body).Respects .sound scope)
    (h : contract (x :: rest) body arg = .ok (result, flag)) :
    result = wrap rest (body.instantiate rest.length arg) ∧
      flag = exposes body (body.rewrite (replacing x (arg.raise (rest.length + 1))) 0) := by
  rw [contract_eq_contractBody] at h
  obtain ⟨step, hstep, h⟩ := bind_eq_ok.mp h
  obtain rfl := Verdict.atMost_of_unlessOverflow (contractBody_unlessOverflow hf arg) step hstep
  cases h
  exact ⟨rfl, rfl⟩

theorem respects_wrap : (wrap rest body).Respects d scope ↔
    (rest ≠ [] → d.binders scope rest) ∧ body.Respects d (under rest scope) := by
  cases rest with
  | nil => simp [wrap]
  | cons v vs => simp [wrap]

theorem Respects.instantiate (hd : d.Portable) (hf : (Term.abs (x :: rest) body).Respects d scope)
    (harg : arg.Respects d scope) :
    (wrap rest (body.instantiate rest.length arg)).Respects d scope := by
  obtain ⟨hbinders, hbody⟩ := respects_abs.mp hf
  refine respects_wrap.mpr ⟨hd.rest hbinders, Respects.rewrite hbody
    ⟨fun inner v hv => ?_, fun _ _ h => hd.binders h, fun _ _ h => h, fun _ h => h⟩⟩
  rw [under_cons, under, ← List.append_assoc] at hv
  rw [under, ← List.append_assoc]
  have hlength : (inner ++ (rest.map (·.name)).reverse).length = rest.length + inner.length := by
    rw [List.length_append, List.length_reverse, List.length_map, Nat.add_comm]
  unfold instantiating
  split
  · rw [← hlength]
    exact harg.raise hd _
  · split
    · exact hd.above hv (by omega)
    · exact hd.below hv (by omega)

theorem Respects.contract {binders : List Variable} (hd : d.Portable)
    (hf : (Term.abs binders body).Respects (Discipline.sound.and d) scope)
    (harg : arg.Respects d scope) (h : contract binders body arg = .ok (result, flag)) :
    result.Respects d scope := by
  obtain ⟨hsound, hf⟩ := respects_and.mp hf
  cases binders with
  | nil => cases h
  | cons x rest =>
      rw [(contract_eq_ok hsound h).1]
      exact hf.instantiate hd harg

/-! ## The eta step -/

end Term

/-- The variable does not occur; it is counted from below the outermost `base` entries of the scope. -/
def Discipline.without (base : Nat) (v : Variable) : Discipline where
  occurrence scope w := w ≠ v.raiseAbove 0 (scope.length - base)
  binders _ _ := True
  arguments _ _ := True
  definitions _ := True

/-- The search finds nothing exactly if `P`, in the sense of a verdict. -/
def Verdict.Searches (verdict : Verdict) (x : Except Fault Bool) (P : Prop) : Prop :=
  ∃ found, verdict.Holds x found ∧ (found = false ↔ P)

/-- A search that goes on after a miss. -/
theorem Verdict.Searches.orElse {verdict : Verdict} {x y : Except Fault Bool} {P Q : Prop}
    (hx : verdict.Searches x P) (hy : verdict.Searches y Q) :
    verdict.Searches (do if ← x then return true else y) (P ∧ Q) := by
  obtain ⟨a, hx, ha⟩ := hx
  obtain ⟨b, hy, hb⟩ := hy
  cases a with
  | true => exact ⟨true, verdict.bind hx (verdict.ok true), by simp [← ha]⟩
  | false => exact ⟨b, verdict.bind hx hy, by simp [← ha, hb]⟩

theorem Verdict.Searches.congr {verdict : Verdict} {x : Except Fault Bool} {P Q : Prop}
    (hx : verdict.Searches x P) (h : P ↔ Q) : verdict.Searches x Q := by
  obtain ⟨found, hfound, hiff⟩ := hx
  exact ⟨found, hfound, hiff.trans h⟩

namespace Term

section Search

variable (verdict : Verdict) {d : Discipline} {outer : List String} {v : Variable}
  (henter : ∀ inner vs, d.binders (inner ++ outer) vs →
    verdict.Holds ((v.raiseAbove 0 inner.length).shift (.up vs.length))
      (v.raiseAbove 0 (inner.length + vs.length)))

include henter

/-- Looking for a variable is looking for an occurrence of it, if the variable can be moved past the
binders on the way. -/
theorem searches_mentions_within (inner : List String) {t : Term} (ht : t.Respects d (inner ++ outer)) :
    verdict.Searches (t.mentions (v.raiseAbove 0 inner.length))
      (t.Respects (.without outer.length v) (inner ++ outer)) := by
  -- lists and definitions are searched from left to right
  have hlist (inner : List String) (ts : List Term) (h : ∀ t ∈ ts, verdict.Searches
      (t.mentions (v.raiseAbove 0 inner.length))
      (t.Respects (.without outer.length v) (inner ++ outer))) :
      verdict.Searches (mentionsList (v.raiseAbove 0 inner.length) ts)
        (∀ t ∈ ts, t.Respects (.without outer.length v) (inner ++ outer)) := by
    induction ts with
    | nil => rw [mentionsList]; exact ⟨false, verdict.ok _, by simp⟩
    | cons t ts ih =>
        rw [mentionsList, List.forall_mem_cons]
        exact (h t (by simp)).orElse (ih fun u hu => h u (by simp [hu]))
  have hdefs (inner : List String) (defs : List (String × Term)) (h : ∀ p ∈ defs, verdict.Searches
      (p.2.mentions (v.raiseAbove 0 inner.length))
      (p.2.Respects (.without outer.length v) (inner ++ outer))) :
      verdict.Searches (mentionsDefs (v.raiseAbove 0 inner.length) defs)
        (∀ p ∈ defs, p.2.Respects (.without outer.length v) (inner ++ outer)) := by
    induction defs with
    | nil => rw [mentionsDefs]; exact ⟨false, verdict.ok _, by simp⟩
    | cons p defs ih =>
        rw [mentionsDefs, List.forall_mem_cons]
        exact (h p (by simp)).orElse (ih fun q hq => h q (by simp [hq]))
  induction t using induction_on generalizing inner with
  | var w =>
      rw [mentions, respects_var]
      show verdict.Searches _ (w ≠ v.raiseAbove 0 ((inner ++ outer).length - outer.length))
      rw [List.length_append, Nat.add_sub_cancel]
      exact ⟨_, verdict.ok _, beq_eq_false_iff_ne⟩
  | abs binders body ih =>
      obtain ⟨hbinders, hbody⟩ := respects_abs.mp ht
      rw [under_append] at hbody
      obtain ⟨found, hfound, hiff⟩ := ih _ hbody
      rw [length_under] at hfound
      rw [mentions, respects_abs, under_append]
      refine ⟨found, verdict.bind (henter inner binders hbinders) hfound, hiff.trans ?_⟩
      exact (and_iff_right trivial).symm
  | app l r ihl ihr =>
      obtain ⟨hl, hr⟩ := respects_app.mp ht
      rw [mentions, respects_app]
      exact (ihl _ hl).orElse (ihr _ hr)
  | const c => rw [mentions]; exact ⟨false, verdict.ok _, by simp⟩
  | list elems ih =>
      rw [mentions, respects_list]
      exact hlist inner elems fun t hmem => ih t hmem _ (respects_list.mp ht t hmem)
  | instr head args ih =>
      have hargs := (respects_instr.mp ht).2
      rw [mentions, respects_instr]
      exact (hlist inner args fun t hmem => ih t hmem _ (hargs t hmem)).congr
        (and_iff_right trivial).symm
  | define form x a b iha ihb =>
      obtain ⟨ha, hb⟩ := respects_define.mp ht
      rw [mentions, respects_define]
      exact (iha _ ha).orElse (ihb _ hb)
  | recur defs b ihd ihb =>
      obtain ⟨-, hall, hb⟩ := respects_recur.mp ht
      rw [mentions, respects_recur]
      exact ((hdefs inner defs fun p hp => ihd p hp _ (hall p hp)).orElse (ihb _ hb)).congr
        (and_iff_right trivial).symm

theorem searches_mentions {t : Term} (ht : t.Respects d outer) :
    verdict.Searches (t.mentions v) (t.Respects (.without outer.length v) outer) := by
  have hsearch := searches_mentions_within verdict henter [] ht
  rwa [List.length_nil, Variable.raiseAbove_zero] at hsearch

end Search

/-- Unless the variable moves past the last depth, the search ends. -/
theorem Respects.mentions_unlessOverflow {t : Term} (v : Variable) (ht : t.Respects .addressable scope) :
    Verdict.unlessOverflow.Searches (t.mentions v) (t.Respects (.without scope.length v) scope) := by
  refine searches_mentions .unlessOverflow (fun inner vs (hvs : vs.length < signedRange) => ?_) ht
  rw [Shift.up_eq hvs, ← Variable.raiseAbove_raiseAbove]
  exact Variable.shift_raise_unlessOverflow _ _ _

theorem Respects.of_mentions_eq_false {t : Term} {v : Variable} (ht : t.Respects .addressable scope)
    (h : t.mentions v = .ok false) : t.Respects (.without scope.length v) scope := by
  obtain ⟨found, hfound, hiff⟩ := ht.mentions_unlessOverflow v
  exact hiff.mp (Verdict.atMost_of_unlessOverflow hfound false h).symm

/-- A term that does not mention the innermost binder can leave its scope. -/
theorem Respects.lower {t : Term} {y : String}
    (ht : t.Respects .sound (y :: scope)) (habsent : t.mentions ⟨y, 1⟩ = .ok false) :
    (t.lowerAbove 1 1).Respects .wellFormed scope := by
  obtain ⟨hwf, hsize⟩ := respects_and.mp ht
  have hwithout := hsize.of_mentions_eq_false habsent
  refine Respects.rewrite (respects_and.mpr ⟨hwf, hwithout⟩)
    ⟨fun inner v hv => ?_, fun _ _ h => h.1, fun _ _ h => h.1, fun _ h => h.1⟩
  obtain ⟨hpoints, hne⟩ := hv
  -- an occurrence that pointed to the binder would carry its name
  have hdepth : v.depth ≠ 1 + inner.length := by
    intro hdepth
    refine hne ?_
    have hname : v.name = y := by
      have hget := hpoints (by omega) (by simp only [List.length_append, List.length_cons]; omega)
      rw [List.getElem?_append_right (by omega), hdepth] at hget
      simpa [eq_comm] using hget
    rw [Variable.raiseAbove_of_lt Nat.zero_lt_one, List.length_append, Nat.add_sub_cancel, ← hname,
      ← hdepth]
  rw [respects_var]
  by_cases hle : v.depth ≤ 1 + inner.length
  · rw [Variable.lowerAbove_of_le hle]
    exact Discipline.wellFormed_portable.below hpoints (by omega)
  · rw [Variable.lowerAbove_of_lt (by omega)]
    exact Discipline.wellFormed_portable.above hpoints (by omega)

theorem depth_innermost {outer : List Variable} {v : Variable}
    (h : Discipline.wellFormed.binders scope (outer ++ [v])) : v.depth = 1 := by
  induction outer with
  | nil => exact numbered_head h
  | cons w outer ih => exact ih (Discipline.wellFormed_portable.rest h (by simp))

/-- Joining the binders that remain with those of the operator leaves each occurrence with the binder
it had. -/
theorem WellFormed.etaReduce {binders : List Variable} {u : Term}
    (hf : (Term.abs binders body).WellFormed) (hsize : (Term.abs binders body).Addressable)
    (h : etaReduce binders body = .ok u) : u.WellFormed := by
  unfold Term.etaReduce at h
  split at h
  case h_2 => cases h; exact hf
  case h_1 g v innermost hlast =>
    obtain ⟨outer, rfl⟩ := List.getLast?_eq_some_iff.mp hlast
    split at h
    · cases h; exact hf
    · obtain ⟨found, hfound, h⟩ := bind_eq_ok.mp h
      split at h
      · cases h; exact hf
      · obtain ⟨g', hg', h⟩ := bind_eq_ok.mp h
        have hlower := shift_lower_unlessOverflow (Nat.le_refl 1) g
        obtain rfl := Verdict.atMost_of_unlessOverflow hlower g' hg'
        obtain ⟨hbinders, hbody⟩ := respects_abs.mp hf
        have hscope : under (outer ++ [innermost]) [] = innermost.name :: under outer [] := by
          simp [under]
        have hinnermost : innermost = ⟨innermost.name, 1⟩ := by rw [← depth_innermost hbinders]
        have hg : g.Respects .sound (innermost.name :: under outer []) := by
          have hboth := respects_and.mpr ⟨hbody, (respects_abs.mp hsize).2⟩
          rw [hscope] at hboth
          exact (respects_app.mp hboth).1
        have habsent : g.mentions ⟨innermost.name, 1⟩ = .ok false := by
          rw [← hinnermost, hfound]
          simpa using ‹¬found = true›
        have hlower := hg.lower habsent
        -- the binders that remain and those of the operator make one scope
        have hunder (inner : List Variable) : under (numbered (outer.map (·.name) ++
            inner.map (·.name))) [] = under inner (under outer []) := by
          rw [under_numbered]
          simp [under]
        rw [List.dropLast_concat] at h
        split at h
        case h_1 inner b hb =>
          cases h
          rw [hb] at hlower
          obtain ⟨hinner, hb⟩ := respects_abs.mp hlower
          refine respects_abs.mpr ⟨numbered_wellFormed ?_, by rwa [hunder]⟩
          simpa using fun _ => hinner.1
        case h_2 =>
          cases h
          have houter := hunder []
          rw [List.map_nil, List.append_nil, under_nil] at houter
          refine respects_wrap.mpr ⟨fun hne => numbered_wellFormed fun hnil => hne ?_, by rwa [houter]⟩
          rw [hnil]
          rfl

end Term

end IndexedLambda
