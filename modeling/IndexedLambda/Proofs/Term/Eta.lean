import IndexedLambda.Proofs.Term.Feeding
/-!
# Eta steps

An eta step takes `λ x₁ .. xₖ . g xₖ` to `g` below the binders that remain, when nothing in `g` points to
`xₖ`. The test for that looks for a name and a depth, the step lowers `g`, and if `g` is an abstraction
its binders are joined with those that remain and all are numbered anew. None of this can be told from
outside: on arguments for all binders, the abstraction gives the application, to the last argument, of
what its eta form gives on the others.

Both sides are compared as rewritings of `g`. An argument that goes in below the innermost binder is
raised past it, so `g` keeps ignoring that binder (`Ignores.instantiate`), and lowering may come before
or after the arguments go in (`lower_instantiateAll`).
-/

namespace IndexedLambda

/-- No occurrence points to the binder just outside the term. The outermost `base` entries of the scope
lie outside the term. -/
def Discipline.ignoring (base : Nat) : Discipline where
  occurrence scope v := v.depth ≠ scope.length - base + 1
  binders _ _ := True
  arguments _ _ := True
  definitions _ := True

instance (base : Nat) : (Discipline.ignoring base).Decides where
  occurrence scope v := inferInstanceAs (Decidable (v.depth ≠ scope.length - base + 1))
  binders _ _ := inferInstanceAs (Decidable True)
  arguments _ _ := inferInstanceAs (Decidable True)
  definitions _ := inferInstanceAs (Decidable True)

/-- The search ends, and it finds nothing exactly if `P`. -/
def Searches (x : Except Fault Bool) (P : Prop) : Prop := ∃ found, x = .ok found ∧ (found = false ↔ P)

namespace Term

/-- No occurrence points to the binder just outside the term. -/
def Ignores (t : Term) : Prop := t.Respects (.ignoring 0) []

instance (t : Term) : Decidable t.Ignores := inferInstanceAs (Decidable (t.Respects (.ignoring 0) []))

/-- The body hands the innermost argument on to an operator that ignores it. -/
def HandsOn (body : Term) : Prop := ∃ g v, body = .app g (.var v) ∧ v.depth = 1 ∧ g.Ignores

variable {scope : List String} {depth nesting n : Nat} {v y : Variable} {outer : List Variable}
  {names : List String} {g t arg : Term} {args : List Term}

/-! ## The test -/

/-- Where there is room for the variable below all binders, the search ends. -/
theorem Respects.searches_mentions (ht : t.Respects (.within depth nesting) [])
    (hnesting : nesting < signedRange) (hv : v.depth + nesting < wordRange) :
    Searches (t.mentions v) (t.Respects (.without 0 v) []) := by
  refine Term.searches_mentions .exactly (fun inner vs (hvs : _ ≤ nesting) => ?_) ht
  rw [List.append_nil] at hvs
  rw [Shift.up_eq (by omega), ← Variable.raiseAbove_raiseAbove]
  refine Variable.shift_raise_exactly ?_
  have := v.depth_raiseAbove_le 0 inner.length
  omega

/-- An occurrence that points to the innermost binder carries its name. -/
theorem name_of_points_innermost {inner : List String} {x : String}
    (hv : Discipline.wellFormed.occurrence (inner ++ x :: scope) v)
    (hdepth : v.depth = inner.length + 1) : v.name = x := by
  have hname := hv (by omega) (by simp only [List.length_append, List.length_cons]; omega)
  rw [List.getElem?_append_right (by omega), hdepth] at hname
  simpa [eq_comm] using hname

/-- Where names and depths agree, looking for a name and a depth is looking for the depth. -/
theorem respects_without_iff_ignores {x : String} (ht : t.Respects .wellFormed (x :: scope)) :
    t.Respects (.without 0 ⟨x, 1⟩) [] ↔ t.Ignores := by
  have hmoved (j : Nat) : Variable.raiseAbove 0 j ⟨x, 1⟩ = ⟨x, 1 + j⟩ :=
    Variable.raiseAbove_of_lt Nat.zero_lt_one
  constructor
  · intro hwithout
    have hsame : t.Respects (.without (x :: scope).length ⟨x, 1⟩) (x :: scope) := by
      refine hwithout.transfer ⟨fun inner v hv => respects_var.mpr ?_, fun _ _ h => h, fun _ _ h => h,
        fun _ h => h⟩
      show v ≠ Variable.raiseAbove 0 ((inner ++ x :: scope).length - (x :: scope).length) ⟨x, 1⟩
      rw [List.length_append, Nat.add_sub_cancel]
      rwa [List.append_nil] at hv
    refine Respects.transfer (respects_and.mpr ⟨ht, hsame⟩) ⟨fun inner v hv => respects_var.mpr ?_,
      fun _ _ _ => trivial, fun _ _ _ => trivial, fun _ _ => trivial⟩
    obtain ⟨hpoints, hne⟩ := hv
    rw [List.append_nil]
    intro hdepth
    have hname := name_of_points_innermost hpoints hdepth
    refine hne ?_
    rw [hmoved, List.length_append, Nat.add_sub_cancel, ← hname, Nat.add_comm,
      ← Nat.sub_zero inner.length, ← hdepth]
  · intro hignores
    refine Respects.transfer hignores ⟨fun inner v hv => respects_var.mpr ?_, fun _ _ h => h,
      fun _ _ h => h, fun _ h => h⟩
    rintro rfl
    rw [hmoved] at hv
    exact hv (Nat.add_comm _ _)

/-! ## Arguments below a binder that is ignored -/

/-- An argument is raised past the binder. -/
theorem Ignores.instantiate (ht : t.Ignores) : (t.instantiate (n + 1) arg).Ignores := by
  refine Respects.rewrite ht ⟨fun inner v hv => ?_, fun _ _ h => h, fun _ _ h => h, fun _ h => h⟩
  rw [List.append_nil] at hv ⊢
  have hdepth : v.depth ≠ inner.length + 1 := hv
  unfold instantiating
  split
  · refine Respects.rewrite (respects_any [] arg) ⟨fun i w _ => respects_var.mpr ?_,
      fun _ _ h => h, fun _ _ h => h, fun _ h => h⟩
    show (w.raiseAbove (0 + i.length) (n + 1 + inner.length)).depth ≠ (i ++ inner).length - 0 + 1
    rw [Nat.zero_add, List.length_append]
    by_cases hle : w.depth ≤ i.length
    · rw [Variable.raiseAbove_of_le hle]
      omega
    · rw [Variable.raiseAbove_of_lt (by omega)]
      dsimp only
      omega
  · split
    · show v.depth - 1 ≠ inner.length + 1
      omega
    · exact hdepth

/-- Lowering what ignores the binder may come before the argument goes in or after. -/
theorem lower_instantiate (ht : t.Ignores) :
    (t.lowerAbove 1 1).instantiate n arg = (t.instantiate (n + 1) arg).lowerAbove 1 1 := by
  unfold lowerAbove Term.instantiate
  rw [rewrite_rewrite, rewrite_rewrite]
  refine Respects.rewrite_congr ht fun inner v hv => ?_
  rw [List.append_nil] at hv
  have hdepth : v.depth ≠ inner.length + 1 := hv
  rw [rewrite_var]
  by_cases hle : v.depth ≤ 1 + inner.length
  · rw [Variable.lowerAbove_of_le hle, instantiating_of_lt (by omega), instantiating_of_lt (by omega),
      rewrite_var, Variable.lowerAbove_of_le hle]
  · rw [Variable.lowerAbove_of_lt (by omega)]
    by_cases hhit : v.depth = n + 1 + 1 + inner.length
    · unfold instantiating
      rw [if_pos (by dsimp only; omega), if_pos hhit]
      -- the argument was raised past the binder, and lowering takes that back
      have hraise : arg.raise (n + 1 + inner.length) = (arg.raise n).raise (0 + 1 + inner.length) := by
        rw [raise_raise]
        congr 1
        omega
      rw [hraise, rewrite_raise_past (fun i v h => by rw [Variable.lowerAbove_of_le (by omega)])
        (fun i v h => by rw [Variable.lowerAbove_of_lt (by omega)]), raise_raise, Nat.zero_add]
    · by_cases hgt : n + 1 + 1 + inner.length < v.depth
      · rw [instantiating_of_gt (by dsimp only; omega), instantiating_of_gt hgt, rewrite_var,
          Variable.lowerAbove_of_lt (by dsimp only; omega)]
      · rw [instantiating_of_lt (by dsimp only; omega), instantiating_of_lt (by omega), rewrite_var,
          Variable.lowerAbove_of_lt (by omega)]

theorem lower_instantiateAll (ht : t.Ignores) :
    (t.instantiateAll (n + 1) args).Ignores ∧
      (t.lowerAbove 1 1).instantiateAll n args = (t.instantiateAll (n + 1) args).lowerAbove 1 1 := by
  induction args generalizing t with
  | nil => exact ⟨ht, rfl⟩
  | cons a args ih =>
      rw [instantiateAll, instantiateAll, lower_instantiate ht, Nat.add_right_comm]
      exact ih ht.instantiate

/-- The argument for a binder that is ignored is dropped. -/
theorem Ignores.instantiate_eq_lower (ht : t.Ignores) : t.instantiate 0 arg = t.lowerAbove 1 1 := by
  refine Respects.rewrite_congr ht fun inner v hv => ?_
  rw [List.append_nil] at hv
  have hdepth : v.depth ≠ inner.length + 1 := hv
  by_cases hle : v.depth ≤ 1 + inner.length
  · rw [instantiating_of_lt (by omega), Variable.lowerAbove_of_le hle]
  · rw [instantiating_of_gt (by omega), Variable.lowerAbove_of_lt (by omega)]

/-- What the abstraction gives once all its arguments are in. -/
theorem instantiateAll_handsOn (hg : g.Ignores) (hv : v.depth = 1) :
    (Term.app g (.var v)).instantiateAll 0 (args ++ [arg]) =
      .app ((g.lowerAbove 1 1).instantiateAll 0 args) arg := by
  have hvar (args : List Term) : (Term.var v).instantiateAll 1 args = .var v := by
    induction args with
    | nil => rfl
    | cons a args ih =>
        rw [instantiateAll, Term.instantiate, rewrite_var, instantiating_of_lt (by omega)]
        exact ih
  obtain ⟨hignores, hlower⟩ : (g.instantiateAll 1 args).Ignores ∧
      (g.lowerAbove 1 1).instantiateAll 0 args = (g.instantiateAll 1 args).lowerAbove 1 1 :=
    lower_instantiateAll hg
  rw [instantiateAll_app, instantiateAll_concat, instantiateAll_concat, hignores.instantiate_eq_lower,
    ← hlower, hvar, Term.instantiate, rewrite_var, instantiating, if_pos (by omega), raise_zero]

/-! ## The joined binders -/

/-- Binders put around a term, joined with those it has if it is an abstraction. -/
def joined (names : List String) : Term → Term
  | .abs binders body => .abs (numbered (names ++ binders.map (·.name))) body
  | t => wrap (numbered names) t

theorem numbered_append (names inner : List String) :
    ∃ vs, vs.length = names.length ∧ numbered (names ++ inner) = vs ++ numbered inner := by
  induction names with
  | nil => exact ⟨[], rfl, rfl⟩
  | cons x names ih =>
      obtain ⟨vs, hlength, hvs⟩ := ih
      exact ⟨⟨x, (names ++ inner).length + 1⟩ :: vs, by rw [List.length_cons, hlength]; rfl,
        by rw [List.cons_append, numbered, hvs]; rfl⟩

/-- Takes an argument for each of the names and is then the term with the arguments in it. Without names
it is the term. -/
def Awaits (names : List String) (t u : Term) : Prop :=
  names = [] ∧ u = t ∨
    ∃ vs rest body, vs.length = names.length ∧ u = .abs (vs ++ rest) body ∧
      ∀ args, wrap rest (body.instantiateAll rest.length args) = t.instantiateAll 0 args

theorem awaits_wrap (names : List String) (t : Term) : Awaits names t (wrap (numbered names) t) := by
  cases names with
  | nil => exact .inl ⟨rfl, rfl⟩
  | cons x names =>
      refine .inr ⟨numbered (x :: names), [], t, length_numbered _, ?_, fun args => rfl⟩
      rw [List.append_nil]
      rfl

theorem awaits_joined (names : List String) (ht : t.Respects .wellFormed scope) :
    Awaits names t (joined names t) := by
  cases t with
  | abs inner body =>
      obtain ⟨hne, hinner⟩ := (respects_abs.mp ht).1
      obtain ⟨vs, hlength, hvs⟩ := numbered_append names (inner.map (·.name))
      refine .inr ⟨vs, inner, body, hlength, ?_, fun args => ?_⟩
      · rw [joined, hvs, ← hinner]
      · rw [instantiateAll_abs, Nat.zero_add, wrap, if_neg (by simpa using hne)]
  | _ => exact awaits_wrap names _

/-- Whatever the steps give is the term with the arguments in it. -/
theorem Awaits.eq_instantiateAll {u w : Term} (hu : Awaits names t u)
    (hlength : args.length = names.length) (hsound : u.Respects .sound [])
    (hargs : ∀ a ∈ args, a.Respects .sound []) (h : ContractsTo u args w) :
    w = t.instantiateAll 0 args := by
  obtain ⟨rfl, rfl⟩ | ⟨vs, rest, body, hvs, rfl, hbody⟩ := hu
  · obtain rfl : args = [] := List.length_eq_zero_iff.mp hlength
    rw [h.eq_of_nil]
    rfl
  · rw [h.eq_instantiateAll (hlength.trans hvs.symm) hsound hargs, hbody]

theorem Awaits.contractsTo {u : Term} (hu : Awaits names t u) (hlength : args.length = names.length)
    (hwf : u.WellFormed) (hdepths : u.Respects (.within signedRange nesting) [])
    (hargs : ∀ a ∈ args, a.WellFormed ∧ a.Respects (.within signedRange n) [])
    (hroom : nesting + n < signedRange) : ContractsTo u args (t.instantiateAll 0 args) := by
  obtain ⟨rfl, rfl⟩ | ⟨vs, rest, body, hvs, rfl, hbody⟩ := hu
  · obtain rfl : args = [] := List.length_eq_zero_iff.mp hlength
    exact .done _
  · rw [← hbody]
    exact contractsTo_of_within (hlength.trans hvs.symm) hwf hdepths hargs hroom

/-- The same term under more binders. -/
theorem Respects.within_outward {scope' : List String} {m : Nat}
    (ht : t.Respects (.within depth n) scope) (hscope : scope'.length ≤ m + scope.length)
    (hroom : m + n ≤ nesting) : t.Respects (.within depth nesting) scope' := by
  refine ht.transfer ⟨fun i v hv => respects_var.mpr ⟨hv.1, ?_⟩, fun i vs (hvs : _ ≤ n) => ?_,
    fun _ _ h => h, fun _ h => h⟩
  · have hi := hv.2
    rw [List.length_append] at hi ⊢
    omega
  · show (i ++ scope').length + vs.length ≤ nesting
    rw [List.length_append] at hvs ⊢
    omega

theorem Respects.joined_within (ht : t.Respects (.within depth n) [])
    (hroom : names.length + n ≤ nesting) : (joined names t).Respects (.within depth nesting) [] := by
  have hplain : (wrap (numbered names) t).Respects (.within depth nesting) [] := by
    refine respects_wrap.mpr ⟨fun _ => ?_, ht.within_outward (m := names.length) (by simp) hroom⟩
    show 0 + (numbered names).length ≤ nesting
    rw [length_numbered]
    omega
  cases t with
  | abs inner body =>
      obtain ⟨hinner, hbody⟩ := respects_abs.mp ht
      have hcount : 0 + inner.length ≤ n := hinner
      refine respects_abs.mpr ⟨?_, hbody.within_outward (m := names.length) ?_ hroom⟩
      · show 0 + (numbered (names ++ inner.map (·.name))).length ≤ nesting
        rw [length_numbered, List.length_append, List.length_map]
        omega
      · simp only [length_under, length_numbered, List.length_append, List.length_map]
        omega
  | _ => exact hplain

/-! ## The step -/

theorem etaReduce_eq_self (hmentions : g.mentions y = .ok true) :
    etaReduce (outer ++ [y]) (.app g (.var y)) = .ok (.abs (outer ++ [y]) (.app g (.var y))) := by
  simp only [etaReduce, List.getLast?_concat, ne_eq, not_true, if_false, hmentions]
  rfl

theorem etaReduce_eq_joined (hmentions : g.mentions y = .ok false)
    (hlower : g.shift ⟨1, -1⟩ = .ok (g.lowerAbove 1 1)) :
    etaReduce (outer ++ [y]) (.app g (.var y)) =
      .ok (joined (outer.map (·.name)) (g.lowerAbove 1 1)) := by
  simp only [etaReduce, List.getLast?_concat, ne_eq, not_true, if_false, hmentions,
    List.dropLast_concat]
  refine bind_eq_ok.mpr ⟨_, rfl, bind_eq_ok.mpr ⟨_, hlower, ?_⟩⟩
  cases g.lowerAbove 1 1 <;> rfl

theorem under_concat (outer : List Variable) (y : Variable) :
    under (outer ++ [y]) [] = y.name :: under outer [] := by
  simp [under]

/-- The last binder has depth one, and so has what points to it. -/
theorem eq_innermost (hf : (Term.abs (outer ++ [y]) (.app g (.var v))).WellFormed) :
    v.depth = 1 ↔ v = y := by
  obtain ⟨hbinders, hbody⟩ := respects_abs.mp hf
  have hy := depth_innermost hbinders
  constructor
  · intro hdepth
    have hv : Discipline.wellFormed.occurrence ([] ++ y.name :: under outer []) v := by
      rw [List.nil_append, ← under_concat]
      exact respects_var.mp (respects_app.mp hbody).2
    calc v = ⟨v.name, v.depth⟩ := rfl
      _ = ⟨y.name, y.depth⟩ := by rw [name_of_points_innermost hv hdepth, hdepth, hy]
  · rintro rfl
    exact hy

theorem searches_innermost (hf : (Term.abs (outer ++ [y]) (.app g (.var v))).WellFormed)
    (hsize : (Term.abs (outer ++ [y]) (.app g (.var v))).Respects (.within depth nesting) [])
    (hnesting : nesting < signedRange) : Searches (g.mentions y) g.Ignores := by
  have hwords : signedRange + signedRange = wordRange := rfl
  obtain ⟨hbinders, hbody⟩ := respects_abs.mp hf
  have hy : y = ⟨y.name, 1⟩ := by rw [← depth_innermost hbinders]
  have hg := (respects_app.mp hbody).1
  rw [under_concat] at hg
  rw [← respects_without_iff_ignores hg, ← hy]
  have hwithin := (respects_app.mp hsize.within_body.2).1
  exact hwithin.searches_mentions (by omega) (by rw [depth_innermost hbinders]; omega)

/-- Anything but a body that hands its last argument on comes back. -/
theorem etaReduce_of_not_handsOn {body : Term} (hf : (Term.abs (outer ++ [y]) body).WellFormed)
    (hsize : (Term.abs (outer ++ [y]) body).Respects (.within depth nesting) [])
    (hnesting : nesting < signedRange) (hbody : ¬ body.HandsOn) :
    etaReduce (outer ++ [y]) body = .ok (.abs (outer ++ [y]) body) := by
  cases body with
  | app g r =>
      cases r with
      | var v =>
          by_cases hv : v = y
          · obtain ⟨found, hfound, hiff⟩ := searches_innermost hf hsize hnesting
            cases found with
            | true =>
                rw [hv]
                exact etaReduce_eq_self hfound
            | false => exact absurd ⟨g, v, rfl, (eq_innermost hf).mpr hv, hiff.mp rfl⟩ hbody
          · simp only [etaReduce, List.getLast?_concat, ne_eq, hv, not_false_iff, if_true]
      | _ => rfl
  | _ => rfl

/-- A body that hands its last argument on leaves its operator, lowered, below the other binders. -/
theorem etaReduce_of_ignores (hf : (Term.abs (outer ++ [y]) (.app g (.var v))).WellFormed)
    (hsize : (Term.abs (outer ++ [y]) (.app g (.var v))).Respects (.within wordRange nesting) [])
    (hnesting : nesting < signedRange) (hv : v.depth = 1) (hg : g.Ignores) :
    (g.lowerAbove 1 1).Respects .wellFormed (under outer []) ∧
      etaReduce (outer ++ [y]) (.app g (.var v)) =
        .ok (joined (outer.map (·.name)) (g.lowerAbove 1 1)) := by
  have hwords : signedRange + signedRange = wordRange := rfl
  obtain ⟨found, hfound, hiff⟩ := searches_innermost hf hsize hnesting
  rw [hiff.mpr hg] at hfound
  have hwithin := (respects_app.mp hsize.within_body.2).1
  constructor
  · have hsound := (respects_app.mp (respects_abs.mp (respects_and.mpr
      ⟨hf, hsize.addressable_of_within hnesting⟩)).2).1
    rw [under_concat] at hsound
    have hy : (⟨y.name, 1⟩ : Variable) = y := by rw [← depth_innermost (respects_abs.mp hf).1]
    exact Respects.lower hsound (hy ▸ hfound)
  · rw [(eq_innermost hf).mp hv]
    refine etaReduce_eq_joined hfound ?_
    exact hwithin.shift_lower_exactly (n := 1) (Nat.le_refl _) (Nat.le_refl _) (by omega)

/-! ## Feeding both forms -/

/-- The eta form is no larger. -/
theorem Respects.eta_within
    (h : (Term.abs (outer ++ [y]) (.app g (.var v))).Respects (.within depth nesting) []) :
    (joined (outer.map (·.name)) (g.lowerAbove 1 1)).Respects (.within depth nesting) [] := by
  obtain ⟨hcount, hbody⟩ := h.within_body
  rw [List.length_append, List.length_singleton] at hcount hbody
  have hlowered : (g.lowerAbove 1 1).Respects (.within depth (nesting - (outer.length + 1))) [] := by
    refine Respects.rewrite (respects_app.mp hbody).1 ⟨fun i v hv => respects_var.mpr ⟨?_, hv.2⟩,
      fun _ _ h => h, fun _ _ h => h, fun _ h => h⟩
    have hle : (v.lowerAbove (1 + i.length) 1).depth ≤ v.depth := by
      unfold Variable.lowerAbove
      split
      · exact Nat.le_refl _
      · exact Nat.sub_le _ _
    exact Nat.lt_of_le_of_lt hle hv.1
  exact hlowered.joined_within (by rw [List.length_map]; omega)

/-- **Eta steps cannot be told from outside.** The eta form of a well-formed abstraction always exists.
It is the abstraction itself, unless the body hands its last argument on to an operator that ignores it.
In that case, on well-formed arguments for all binders, the abstraction gives the application to the last
argument of what the eta form gives on the others. Whatever the two give is related so, and they give
something if depths and numbers of enclosing binders stay below `2 ^ 63`. -/
theorem etaReduce_feeds_alike {binders : List Variable} {body : Term} {nesting : Nat}
    (hf : (Term.abs binders body).WellFormed)
    (hsize : (Term.abs binders body).Respects (.within wordRange nesting) [])
    (hnesting : nesting < signedRange) :
    ∃ u, etaReduce binders body = .ok u ∧
      (¬ body.HandsOn → u = .abs binders body) ∧
      (body.HandsOn → ∀ args arg, args.length + 1 = binders.length →
        (∀ a ∈ args ++ [arg], a.WellFormed) →
        ((∀ a ∈ args ++ [arg], a.Addressable) → ∀ r g,
          ContractsTo (.abs binders body) (args ++ [arg]) r → ContractsTo u args g →
            r = .app g arg) ∧
        (∀ outer inner, (Term.abs binders body).Respects (.within signedRange outer) [] →
          (∀ a ∈ args ++ [arg], a.Respects (.within signedRange inner) []) →
          outer + inner < signedRange →
          ∃ g, ContractsTo u args g ∧
            ContractsTo (.abs binders body) (args ++ [arg]) (.app g arg))) := by
  have haddressable := hsize.addressable_of_within hnesting
  have hne := (respects_abs.mp hf).1.1
  obtain ⟨outer, y, rfl⟩ : ∃ outer y, binders = outer ++ [y] :=
    ⟨_, _, (List.dropLast_concat_getLast hne).symm⟩
  by_cases hbody : body.HandsOn
  · have hhands := hbody
    obtain ⟨g, v, rfl, hv, hg⟩ := hhands
    obtain ⟨hg', heta⟩ := etaReduce_of_ignores hf hsize hnesting hv hg
    have hwf := hf.etaReduce haddressable heta
    refine ⟨_, heta, fun h => absurd hbody h, fun _ args arg hlength hargs => ?_⟩
    have hall : (args ++ [arg]).length = (outer ++ [y]).length := by
      rw [← hlength, List.length_append, List.length_singleton]
    have hothers : args.length = (outer.map (·.name)).length := by
      rw [List.length_append, List.length_singleton] at hlength
      rw [List.length_map]
      omega
    constructor
    · intro haddr r G hr hG
      have hsound := respects_and.mpr ⟨hwf, hsize.eta_within.addressable_of_within hnesting⟩
      have hargsound (a : Term) (ha : a ∈ args ++ [arg]) : a.Respects .sound [] :=
        respects_and.mpr ⟨hargs a ha, haddr a ha⟩
      rw [hr.eq_of_all hall (respects_and.mpr ⟨hf, haddressable⟩) hargsound,
        (awaits_joined _ hg').eq_instantiateAll hothers hsound
          (fun a ha => hargsound a (by simp [ha])) hG]
      exact instantiateAll_handsOn hg hv
    · intro bound inner hdepths hargdepths hroom
      have hargwithin (a : Term) (ha : a ∈ args ++ [arg]) :
          a.WellFormed ∧ a.Respects (.within signedRange inner) [] := ⟨hargs a ha, hargdepths a ha⟩
      refine ⟨_, (awaits_joined _ hg').contractsTo hothers hwf hdepths.eta_within
        (fun a ha => hargwithin a (by simp [ha])) hroom, ?_⟩
      rw [← instantiateAll_handsOn hg hv]
      exact contractsTo_all hall hf hdepths hargwithin hroom
  · exact ⟨_, etaReduce_of_not_handsOn hf hsize hnesting hbody, fun _ => rfl, fun h => absurd h hbody⟩

/-- `λa x. (λy. a y) x` has the eta form `λa y. a y`, with the binders joined. Both are fed `λu. u v`,
with `v` free, and the first is fed `w` as well. -/
theorem etaReduce_feeds_alike_of_joined_binders :
    let f : List Variable := [⟨"a", 2⟩, ⟨"x", 1⟩]
    let body : Term := .app (.abs [⟨"y", 1⟩] (.app (.var ⟨"a", 3⟩) (.var ⟨"y", 1⟩))) (.var ⟨"x", 1⟩)
    let arg : Term := .abs [⟨"u", 1⟩] (.app (.var ⟨"u", 1⟩) (.var ⟨"v", 2⟩))
    ∃ g, ContractsTo (.abs [⟨"a", 2⟩, ⟨"y", 1⟩] (.app (.var ⟨"a", 2⟩) (.var ⟨"y", 1⟩))) [arg] g ∧
      ContractsTo (.abs f body) [arg, .var ⟨"w", 1⟩] (.app g (.var ⟨"w", 1⟩)) := by
  intro f body arg
  have hargs : ∀ a ∈ [arg] ++ [.var ⟨"w", 1⟩], a.WellFormed := by decide
  have hdepths : ∀ a ∈ [arg] ++ [.var ⟨"w", 1⟩], a.Respects (.within signedRange 1) [] := by decide
  have hbody : body.HandsOn := ⟨_, _, rfl, rfl, by decide⟩
  obtain ⟨u, heta, -, hfeeds⟩ := @etaReduce_feeds_alike f body 3 (by decide) (by decide) (by decide)
  obtain rfl : .abs [⟨"a", 2⟩, ⟨"y", 1⟩] (.app (.var ⟨"a", 2⟩) (.var ⟨"y", 1⟩)) = u :=
    Except.ok.inj heta
  exact (hfeeds hbody [arg] (.var ⟨"w", 1⟩) rfl hargs).2 3 1 (by decide) hdepths (by decide)

/-- `λx. g x` has the eta form `g`, but it cannot be fed a free occurrence of the last depth: that would
have to be raised past the binder first. -/
theorem etaReduce_unfed_last_depth :
    let body : Term := .app (.const "g") (.var ⟨"x", 1⟩)
    let arg : Term := .var ⟨"y", 18446744073709551615⟩
    (Term.abs [⟨"x", 1⟩] body).WellFormed ∧ arg.WellFormed ∧ body.HandsOn ∧
      etaReduce [⟨"x", 1⟩] body = .ok (.const "g") ∧
      contract [⟨"x", 1⟩] body arg = .error (.leavesFreeRange 18446744073709551615 0 1) := by
  exact ⟨by decide, by decide, ⟨_, _, rfl, rfl, by decide⟩, rfl, rfl⟩

end Term

end IndexedLambda
