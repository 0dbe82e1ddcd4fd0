import IndexedLambda.Proofs.Term.Composition
import IndexedLambda.Proofs.Term.NameSubstitution
/-!
# Feeding an abstraction

A step hands one argument to an abstraction. It makes three walks: it raises the argument past all
binders, replaces the outermost binder, and lowers what points further out. Together they are the one
walk of `Term.instantiate`, and with depths and numbers of binders below `2 ^ 63` none of the three can
fault, because what the first two add up to stays below `2 ^ 64`.

Several arguments go in one after the other, and the binders that are not served stay around the result.
`Term.instantiateAll` is the body after all the steps.
-/

namespace IndexedLambda.Term

variable {d d' : Discipline} {scope scope' : List String} {depth nesting outer inner : Nat}
  {x : Variable} {vs rest binders : List Variable} {body arg t u : Term} {args : List Term}

/-- A discipline that asks less, or asks the same in another scope. -/
theorem Respects.transfer (ht : t.Respects d scope)
    (h : Carries (fun _ v => .var v) d d' scope scope') : t.Respects d' scope' := by
  rw [← rewrite_id (j := 0) t]
  exact ht.rewrite h

/-- The binders of an abstraction count towards the nesting of its body. -/
theorem Respects.within_body (h : (Term.abs binders body).Respects (.within depth nesting) []) :
    binders.length ≤ nesting ∧ body.Respects (.within depth (nesting - binders.length)) [] := by
  obtain ⟨hbinders, hbody⟩ := respects_abs.mp h
  have hlength : binders.length ≤ nesting := by
    have hsum : ([] : List String).length + binders.length ≤ nesting := hbinders
    rwa [List.length_nil, Nat.zero_add] at hsum
  refine ⟨hlength, hbody.transfer ⟨fun i v hv => ?_, fun i vs (hvs : _ ≤ nesting) => ?_,
    fun _ _ h => h, fun _ h => h⟩⟩
  · obtain ⟨hdepth, hi⟩ := hv
    rw [List.length_append, length_under, List.length_nil] at hi
    refine respects_var.mpr ⟨hdepth, ?_⟩
    rw [List.append_nil]
    omega
  · rw [List.length_append, length_under, List.length_nil] at hvs
    show (i ++ []).length + vs.length ≤ nesting - binders.length
    rw [List.append_nil]
    omega

/-! ## One step -/

/-- A step whose three walks do not fault. -/
theorem contract_of_walks (hf : (Term.abs (x :: rest) body).Respects .wellFormed scope)
    (hraise : arg.shift (.up (rest.length + 1)) = .ok (arg.raise (rest.length + 1)))
    (hreplace : body.replace x (arg.raise (rest.length + 1)) =
      .ok (body.rewrite (replacing x (arg.raise (rest.length + 1))) 0))
    (hlower : (body.rewrite (replacing x (arg.raise (rest.length + 1))) 0).shift
        ⟨rest.length + 1, -1⟩ =
      .ok ((body.rewrite (replacing x (arg.raise (rest.length + 1))) 0).lowerAbove
        (rest.length + 1) 1)) :
    contract (x :: rest) body arg = .ok (wrap rest (body.instantiate rest.length arg),
      exposes body (body.rewrite (replacing x (arg.raise (rest.length + 1))) 0)) := by
  rw [lower_replacing hf] at hlower
  unfold contract
  refine bind_eq_ok.mpr ⟨_, hraise, bind_eq_ok.mpr ⟨_, hreplace, ?_⟩⟩
  exact bind_eq_ok.mpr ⟨_, hlower, rfl⟩

/-- Depths below `2 ^ 63`, and fewer binders than that around every place, leave room for a step. -/
theorem contract_within (hf : (Term.abs (x :: rest) body).Respects .wellFormed scope)
    (hbody : body.Respects (.within signedRange outer) [])
    (harg : arg.Respects (.within signedRange inner) [])
    (houter : rest.length + 1 + outer < signedRange) (hinner : inner < signedRange) :
    contract (x :: rest) body arg = .ok (wrap rest (body.instantiate rest.length arg),
      exposes body (body.rewrite (replacing x (arg.raise (rest.length + 1))) 0)) := by
  have hwords : signedRange + signedRange = wordRange := rfl
  have hx := numbered_head (respects_abs.mp hf).1
  have hinserted : (body.rewrite (replacing x (arg.raise (rest.length + 1))) 0).Respects
      (.within wordRange (outer + inner)) [] := by
    refine Respects.rewrite hbody ⟨fun i v hv => ?_, fun i vs (hvs : _ ≤ outer) => ?_,
      fun _ _ h => h, fun _ h => h⟩
    · obtain ⟨hdepth, hi⟩ := hv
      rw [List.append_nil] at hi ⊢
      unfold replacing
      split
      · rw [raise_raise]
        exact (respects_and.mp (harg.raise_roomy (n := 0) (by omega) hi (by omega))).1
      · exact ⟨by omega, by omega⟩
    · exact Nat.le_trans hvs (Nat.le_add_right outer inner)
  refine contract_of_walks hf (harg.shift_up_exactly (by omega) (by omega) (by omega)) ?_ ?_
  · exact hbody.replace_exactly (harg.raise_within _) (by omega) (by omega) (by omega) (by omega)
  · exact hinserted.shift_lower_exactly (n := 1) (Nat.le_refl _) (by omega) (by omega)

/-- **One step is one substitution.** The binders of a well-formed abstraction are numbered, and a step
on any argument gives the body in which, under `m` further binders, the occurrence of depth `k + m` has
become the argument raised by `k - 1 + m`, those deeper have come one closer and the others have stayed,
below the `k - 1` binders that remain. Whatever a step gives is this, and if depths and numbers of
enclosing binders are below `2 ^ 63`, then it does give something. -/
theorem contract_is_substitution {binders : List Variable} {body arg : Term}
    (hf : (Term.abs binders body).WellFormed) :
    ∃ x names, binders = numbered (x :: names) ∧
      ((Term.abs binders body).Addressable → ∀ result flag,
        contract binders body arg = .ok (result, flag) →
          result = wrap (numbered names) (body.instantiate names.length arg)) ∧
      (∀ outer inner, (Term.abs binders body).Respects (.within signedRange outer) [] →
        arg.Respects (.within signedRange inner) [] → outer < signedRange → inner < signedRange →
        ∃ flag, contract binders body arg =
          .ok (wrap (numbered names) (body.instantiate names.length arg), flag)) := by
  obtain ⟨hne, hnumbered⟩ := (respects_abs.mp hf).1
  cases binders with
  | nil => exact absurd rfl hne
  | cons v rest =>
      have hrest : numbered (rest.map (·.name)) = rest := (List.cons.inj hnumbered).2.symm
      have hcount : (rest.map (·.name)).length = rest.length := List.length_map _
      refine ⟨v.name, rest.map fun w : Variable => w.name, hnumbered, fun hsize result flag h => ?_, ?_⟩
      · rw [hrest, hcount]
        exact (contract_eq_ok (respects_and.mpr ⟨hf, hsize⟩) h).1
      · intro outer inner hdepths hargdepths houter hinner
        obtain ⟨hlength, hbody⟩ := hdepths.within_body
        rw [List.length_cons] at hlength hbody
        rw [hrest, hcount]
        exact ⟨_, contract_within hf hbody hargdepths (by omega) hinner⟩

/-- `λx y. x (λz. x w)`, with `w` free, on `λu. u v`, with `v` free: the argument goes in once below the
remaining binder and once below two, and `w` comes one closer. -/
theorem contract_is_substitution_below_binders :
    let body : Term := .app (.var ⟨"x", 2⟩)
      (.abs [⟨"z", 1⟩] (.app (.var ⟨"x", 3⟩) (.var ⟨"w", 4⟩)))
    let arg : Term := .abs [⟨"u", 1⟩] (.app (.var ⟨"u", 1⟩) (.var ⟨"v", 2⟩))
    ∃ flag, contract [⟨"x", 2⟩, ⟨"y", 1⟩] body arg = .ok (.abs [⟨"y", 1⟩]
      (.app (.abs [⟨"u", 1⟩] (.app (.var ⟨"u", 1⟩) (.var ⟨"v", 3⟩)))
        (.abs [⟨"z", 1⟩] (.app (.abs [⟨"u", 1⟩] (.app (.var ⟨"u", 1⟩) (.var ⟨"v", 4⟩)))
          (.var ⟨"w", 3⟩)))), flag) := by
  intro body arg
  have hf : (Term.abs [⟨"x", 2⟩, ⟨"y", 1⟩] body).WellFormed := by decide
  have hdepths : (Term.abs [⟨"x", 2⟩, ⟨"y", 1⟩] body).Respects (.within signedRange 3) [] := by decide
  have hargdepths : arg.Respects (.within signedRange 1) [] := by decide
  obtain ⟨y, names, hbinders, -, hstep⟩ := @contract_is_substitution _ body arg hf
  obtain rfl : ["y"] = names := by
    have hnames := congrArg (List.map (·.name)) hbinders
    rw [map_name_numbered] at hnames
    exact (List.cons.inj hnames).2
  exact hstep 3 1 hdepths hargdepths (by decide) (by decide)

/-! ## Several steps -/

/-- The body after the arguments have been handed over one at a time, with `n` binders remaining at the
end. -/
def instantiateAll (n : Nat) : Term → List Term → Term
  | body, [] => body
  | body, arg :: args => instantiateAll n (body.instantiate (n + args.length) arg) args

/-- Whatever the steps give is the body with the arguments in it, below the binders not served. -/
theorem ContractsTo.eq_instantiateAll (hlength : args.length = vs.length)
    (hf : (Term.abs (vs ++ rest) body).Respects .sound [])
    (hargs : ∀ a ∈ args, a.Respects .sound []) (h : ContractsTo (.abs (vs ++ rest) body) args u) :
    u = wrap rest (body.instantiateAll rest.length args) := by
  induction vs generalizing body args with
  | nil =>
      obtain rfl : args = [] := List.length_eq_zero_iff.mp hlength
      have hne : rest ≠ [] := (respects_abs.mp hf).1.1.1
      rw [h.eq_of_nil, List.nil_append, instantiateAll, wrap, if_neg (by simpa using hne)]
  | cons x vs ih =>
      rw [List.cons_append] at hf h
      cases h with
      | done => cases hlength
      | step hstep hrest =>
          rename_i arg _ args _
          have hcount : (vs ++ rest).length = rest.length + args.length := by
            rw [List.length_append, Nat.succ.inj hlength, Nat.add_comm]
          have hresult := hf.instantiate Discipline.sound_portable (hargs arg (by simp))
          obtain ⟨rfl, -⟩ := contract_eq_ok hf hstep
          rw [hcount] at hrest hresult
          rw [instantiateAll]
          by_cases hnil : vs ++ rest = []
          · -- the last binder is gone, so this was the last argument
            obtain ⟨rfl, rfl⟩ := List.append_eq_nil_iff.mp hnil
            obtain rfl : args = [] := List.length_eq_zero_iff.mp (Nat.succ.inj hlength)
            rw [hrest.eq_of_nil]
            rfl
          · rw [wrap, if_neg (by simpa using hnil)] at hrest hresult
            exact ih (Nat.succ.inj hlength) hresult (fun a ha => hargs a (by simp [ha])) hrest

/-- With room for all depths the steps give something. -/
theorem contractsTo_instantiateAll (hlength : args.length = vs.length)
    (hf : (Term.abs (vs ++ rest) body).Respects .sound [])
    (hbody : body.Respects (.roomy (vs ++ rest).length outer inner) [])
    (hargs : ∀ a ∈ args, a.Respects .sound [] ∧ a.Respects (.within signedRange inner) [])
    (hroom : (vs ++ rest).length + outer + inner < signedRange) :
    ContractsTo (.abs (vs ++ rest) body) args
      (wrap rest (body.instantiateAll rest.length args)) := by
  induction vs generalizing body args with
  | nil =>
      obtain rfl : args = [] := List.length_eq_zero_iff.mp hlength
      have hne : rest ≠ [] := (respects_abs.mp hf).1.1.1
      rw [List.nil_append, instantiateAll, wrap, if_neg (by simpa using hne)]
      exact .done _
  | cons x vs ih =>
      cases args with
      | nil => cases hlength
      | cons arg args =>
          rw [List.cons_append] at hf hbody hroom ⊢
          rw [List.length_cons] at hbody hroom
          obtain ⟨hsound, hwithin⟩ := hargs arg (by simp)
          obtain ⟨flag, hstep⟩ := contract_exactly (respects_and.mp hf).1 hbody hwithin hroom
          have hresult := hf.instantiate Discipline.sound_portable hsound
          have hbody' := hbody.instantiate_roomy hwithin (by omega)
          have hcount : rest.length + args.length = (vs ++ rest).length := by
            rw [List.length_append, Nat.succ.inj hlength, Nat.add_comm]
          rw [instantiateAll, hcount]
          refine .step hstep ?_
          by_cases hnil : vs ++ rest = []
          · obtain ⟨rfl, rfl⟩ := List.append_eq_nil_iff.mp hnil
            obtain rfl : args = [] := List.length_eq_zero_iff.mp (Nat.succ.inj hlength)
            exact .done _
          · rw [wrap, if_neg (by simpa using hnil)] at hresult ⊢
            exact ih (Nat.succ.inj hlength) hresult hbody' (fun a ha => hargs a (by simp [ha]))
              (by omega)

theorem Respects.roomy_of_within {n : Nat} (ht : t.Respects (.within signedRange outer) []) :
    t.Respects (.roomy n outer inner) [] := by
  have hwords : signedRange + signedRange = wordRange := rfl
  refine ht.transfer ⟨fun i v hv => ?_, fun i vs (hvs : _ ≤ outer) => ⟨?_, trivial⟩,
    fun _ _ _ => ⟨trivial, trivial⟩, fun _ _ => ⟨trivial, trivial⟩⟩
  · obtain ⟨hdepth, hi⟩ := hv
    exact respects_var.mpr ⟨⟨by omega, by omega⟩, fun _ _ => hi⟩
  · exact Nat.le_trans hvs (Nat.le_add_right outer inner)

theorem contractsTo_of_within (hlength : args.length = vs.length)
    (hf : (Term.abs (vs ++ rest) body).WellFormed)
    (hdepths : (Term.abs (vs ++ rest) body).Respects (.within signedRange outer) [])
    (hargs : ∀ a ∈ args, a.WellFormed ∧ a.Respects (.within signedRange inner) [])
    (hroom : outer + inner < signedRange) :
    ContractsTo (.abs (vs ++ rest) body) args
      (wrap rest (body.instantiateAll rest.length args)) := by
  obtain ⟨hcount, hbody⟩ := hdepths.within_body
  have hroomy : body.Respects (.roomy (vs ++ rest).length (outer - (vs ++ rest).length) inner) [] :=
    hbody.roomy_of_within
  refine contractsTo_instantiateAll hlength
    (respects_and.mpr ⟨hf, hdepths.addressable_of_within (by omega)⟩) hroomy (fun a ha => ?_) (by omega)
  obtain ⟨hwf, hwithin⟩ := hargs a ha
  exact ⟨respects_and.mpr ⟨hwf, hwithin.addressable_of_within (by omega)⟩, hwithin⟩

/-- With arguments for all binders nothing remains around the body. -/
theorem ContractsTo.eq_of_all (hlength : args.length = vs.length)
    (hf : (Term.abs vs body).Respects .sound []) (hargs : ∀ a ∈ args, a.Respects .sound [])
    (h : ContractsTo (.abs vs body) args u) : u = body.instantiateAll 0 args := by
  rw [← List.append_nil vs] at hf h
  exact h.eq_instantiateAll hlength hf hargs

theorem contractsTo_all (hlength : args.length = vs.length) (hf : (Term.abs vs body).WellFormed)
    (hdepths : (Term.abs vs body).Respects (.within signedRange outer) [])
    (hargs : ∀ a ∈ args, a.WellFormed ∧ a.Respects (.within signedRange inner) [])
    (hroom : outer + inner < signedRange) :
    ContractsTo (.abs vs body) args (body.instantiateAll 0 args) := by
  rw [← List.append_nil vs] at hf hdepths ⊢
  exact contractsTo_of_within hlength hf hdepths hargs hroom

theorem instantiateAll_concat (n : Nat) (body : Term) (args : List Term) (arg : Term) :
    body.instantiateAll n (args ++ [arg]) = (body.instantiateAll (n + 1) args).instantiate n arg := by
  induction args generalizing body with
  | nil => rfl
  | cons a args ih =>
      rw [List.cons_append, instantiateAll, instantiateAll, ih, List.length_append,
        List.length_singleton, Nat.add_assoc, Nat.add_comm 1]

theorem instantiateAll_app (n : Nat) (l r : Term) (args : List Term) :
    (Term.app l r).instantiateAll n args =
      .app (l.instantiateAll n args) (r.instantiateAll n args) := by
  induction args generalizing l r with
  | nil => rfl
  | cons a args ih =>
      rw [instantiateAll, instantiate, rewrite_app, ih]
      rfl

theorem instantiateAll_abs (n : Nat) (binders : List Variable) (body : Term) (args : List Term) :
    (Term.abs binders body).instantiateAll n args =
      .abs binders (body.instantiateAll (n + binders.length) args) := by
  induction args generalizing body with
  | nil => rfl
  | cons a args ih =>
      rw [instantiateAll, instantiate_abs, ih, instantiateAll, Nat.add_right_comm]

end IndexedLambda.Term
