import IndexedLambda.Proofs.Term.NameSubstitution
/-!
# Abstracting a constant and applying to it

A constant is abstracted in three walks over a term. The constant is turned into an unassigned
occurrence of a name, the name is bound, and the abstraction takes the constant as its argument. The
last two together are substitution by name (`Term.eq_substituteNames`). So it remains to see that
substitution finds those occurrences again which were put in, and no others: an occurrence of the
term itself is bound by one of its binders, or it is free and has another name.

A local definition that defines the constant again hides it. The first walk stops there, and what is
below stays as it is in all three.

Binding pushes every free occurrence one binder further away. One of depth `2 ^ 64 - 1` cannot be
pushed; nothing else stops the three walks.
-/

namespace IndexedLambda

/-- No free occurrence has the given name. -/
def Discipline.withoutFree (x : String) : Discipline where
  occurrence scope v := scope.length < v.depth → v.name ≠ x
  binders _ _ := True
  arguments _ _ := True
  definitions _ := True

instance (x : String) : (Discipline.withoutFree x).Decides where
  occurrence scope v := inferInstanceAs (Decidable (scope.length < v.depth → v.name ≠ x))
  binders _ _ := inferInstanceAs (Decidable True)
  arguments _ _ := inferInstanceAs (Decidable True)
  definitions _ := inferInstanceAs (Decidable True)

/-- An unassigned occurrence is not moved. -/
theorem Variable.shift_of_unassigned {v : Variable} (hv : v.depth = 0) (s : Shift) :
    v.shift s = .ok v := by
  have hmove : s.move v.depth = .ok v.depth := if_pos (by omega)
  rw [Variable.shift, hmove]
  rfl

namespace Term

/-- The name is that of no free variable of the term. -/
def LacksFree (x : String) (t : Term) : Prop := t.Respects (.withoutFree x) []

instance (x : String) (t : Term) : Decidable (t.LacksFree x) :=
  inferInstanceAs (Decidable (t.Respects (.withoutFree x) []))

variable {c x : String} {v : Variable} {t u : Term} {scope : List String}

/-! ## Putting the constant back -/

/-- Puts a constant in the place of a name, as seen from `j` binders inside. -/
def restoring (x c : String) : Nat → Variable → Term :=
  substituting (lastArgument? [x] [.const c])

theorem restoring_inserted (hv : v.depth = 0) (j : Nat) : restoring v.name c j v = .const c := by
  have hfree : ¬(v.depth ≠ 0 ∧ v.depth ≤ j) := fun h => h.1 hv
  have hargument : lastArgument? [v.name] [.const c] v.name = some (.const c) := by
    simp [lastArgument?]
  rw [restoring, substituting, if_neg hfree, hargument]
  show (Term.const c).raise j = .const c
  rw [raise, raiseAbove, rewrite_const]

theorem restoring_other
    (hv : (Discipline.assigned.and (.withoutFree x)).occurrence scope v) :
    restoring x c scope.length v = .var v := by
  obtain ⟨hassigned, hname⟩ := hv
  by_cases hbound : v.depth ≤ scope.length
  · rw [restoring, substituting, if_pos ⟨hassigned, hbound⟩]
  · have hother : x ≠ v.name := Ne.symm (hname (Nat.lt_of_not_le hbound))
    have hargument : lastArgument? [x] [.const c] v.name = none := by
      simp [lastArgument?, hother]
    rw [restoring, substituting, if_neg fun h => hbound h.2, hargument]
    exact if_neg hassigned

/-- A term in which nothing has been put in is left alone. -/
theorem Respects.restoring_eq_self
    (ht : t.Respects (Discipline.assigned.and (.withoutFree x)) scope) :
    t.rewrite (restoring x c) scope.length = t := by
  rw [← List.append_nil scope] at ht
  have hsame : t.rewrite (restoring x c) scope.length =
      t.rewrite (fun _ v => .var v) scope.length := by
    refine ht.rewrite_congr_within scope fun inner v hv => ?_
    rw [List.append_nil] at hv
    exact restoring_other hv
  rw [hsame, rewrite_id]

theorem abstractConstList_of_forall {rebuild : Term → Term} {ts : List Term}
    (h : ∀ t ∈ ts, ∃ u, t.abstractConst c v = .ok u ∧ rebuild u = t) :
    ∃ us, abstractConstList c v ts = .ok us ∧ us.map rebuild = ts := by
  induction ts with
  | nil => exact ⟨[], rfl, rfl⟩
  | cons t ts ih =>
      obtain ⟨u, hu, hrebuild⟩ := h t (by simp)
      obtain ⟨us, hus, hrest⟩ := ih fun t' ht' => h t' (by simp [ht'])
      refine ⟨u :: us, ?_, by rw [List.map_cons, hrebuild, hrest]⟩
      rw [abstractConstList, hu, hus]
      rfl

theorem abstractConstDefs_of_forall {rebuild : Term → Term} {defs : List (String × Term)}
    (h : ∀ p ∈ defs, ∃ u, p.2.abstractConst c v = .ok u ∧ rebuild u = p.2) :
    ∃ results, abstractConstDefs c v defs = .ok results ∧
      (results.map fun p => (p.1, rebuild p.2)) = defs := by
  induction defs with
  | nil => exact ⟨[], rfl, rfl⟩
  | cons p defs ih =>
      obtain ⟨u, hu, hrebuild⟩ := h p (by simp)
      obtain ⟨results, hresults, hrest⟩ := ih fun p' hp' => h p' (by simp [hp'])
      refine ⟨(p.1, u) :: results, ?_, by rw [List.map_cons, hrebuild, hrest]⟩
      rw [abstractConstDefs, hu, hresults]
      rfl

/-- Turning a constant into an unassigned occurrence never faults, and substitution turns it back. -/
theorem Respects.exists_abstractConst (hv : v.depth = 0)
    (ht : t.Respects (Discipline.assigned.and (.withoutFree v.name)) scope) :
    ∃ u, t.abstractConst c v = .ok u ∧ u.rewrite (restoring v.name c) scope.length = t := by
  induction t using induction_on generalizing scope with
  | var w => exact ⟨.var w, by rw [Term.abstractConst], ht.restoring_eq_self⟩
  | const c' =>
      rw [Term.abstractConst]
      by_cases hc : c' = c
      · refine ⟨.var v, by rw [if_pos hc], ?_⟩
        rw [rewrite_var, restoring_inserted hv, hc]
      · exact ⟨.const c', by rw [if_neg hc], rewrite_const c'⟩
  | abs binders body ih =>
      obtain ⟨body', hbody', hback⟩ := ih (respects_abs.mp ht).2
      refine ⟨.abs binders body', ?_, ?_⟩
      · rw [Term.abstractConst, Variable.shift_of_unassigned hv]
        show (body.abstractConst c v >>= _) = _
        rw [hbody']
        rfl
      · rw [length_under] at hback
        rw [rewrite_abs, hback]
  | app l r ihl ihr =>
      obtain ⟨hl, hr⟩ := respects_app.mp ht
      obtain ⟨l', hl', hlback⟩ := ihl hl
      obtain ⟨r', hr', hrback⟩ := ihr hr
      refine ⟨.app l' r', ?_, by rw [rewrite_app, hlback, hrback]⟩
      rw [Term.abstractConst, hl', hr']
      rfl
  | list elems ih =>
      obtain ⟨elems', helems', hback⟩ :=
        abstractConstList_of_forall fun t hmem => ih t hmem (respects_list.mp ht t hmem)
      refine ⟨.list elems', ?_, by rw [rewrite_list, hback]⟩
      rw [Term.abstractConst, helems']
      rfl
  | instr head args ih =>
      obtain ⟨args', hargs', hback⟩ :=
        abstractConstList_of_forall fun t hmem => ih t hmem ((respects_instr.mp ht).2 t hmem)
      refine ⟨.instr head args', ?_, by rw [rewrite_instr, hback]⟩
      rw [Term.abstractConst, hargs']
      rfl
  | define form y a b iha ihb =>
      rw [Term.abstractConst]
      by_cases hy : y = c
      · exact ⟨_, if_pos hy, ht.restoring_eq_self⟩
      · obtain ⟨ha, hb⟩ := respects_define.mp ht
        obtain ⟨a', ha', haback⟩ := iha ha
        obtain ⟨b', hb', hbback⟩ := ihb hb
        refine ⟨.define form y a' b', ?_, by rw [rewrite_define, haback, hbback]⟩
        rw [if_neg hy, ha', hb']
        rfl
  | recur defs b ihd ihb =>
      rw [Term.abstractConst]
      by_cases hdefined : defines defs c = true
      · exact ⟨_, if_pos hdefined, ht.restoring_eq_self⟩
      · obtain ⟨-, hdefs, hb⟩ := respects_recur.mp ht
        obtain ⟨defs', hdefs', hdback⟩ :=
          abstractConstDefs_of_forall fun p hp => ihd p hp (hdefs p hp)
        obtain ⟨b', hb', hbback⟩ := ihb hb
        refine ⟨.recur defs' b', ?_, by rw [rewrite_recur, hdback, hbback]⟩
        rw [if_neg hdefined, hdefs', hb']
        rfl

/-! ## What the first walk leaves -/

theorem Addressable.abstractConst (ht : t.Addressable) (h : t.abstractConst c v = .ok u) :
    u.Addressable :=
  Respects.abstractConst (fun _ _ => True)
    (fun _ => ⟨fun _ _ h => respects_var.mpr h, fun _ _ h => h, fun _ _ h => h, fun _ h => h⟩)
    (fun _ _ _ => trivial) (fun _ _ _ _ _ _ _ => trivial) ht trivial h

theorem Respects.abstractConst_within {depth nesting : Nat} (hv : v.depth = 0) (hdepth : 0 < depth)
    (ht : t.Respects (.within depth nesting) []) (h : t.abstractConst c v = .ok u) :
    u.Respects (.within depth nesting) [] := by
  refine Respects.abstractConst (fun scope w => w.depth = 0 ∧ scope.length ≤ nesting)
    (fun _ => ⟨fun _ _ h => h, fun _ _ h => h, fun _ _ h => h, fun _ h => h⟩) ?_ ?_ ht
    ⟨hv, Nat.zero_le _⟩ h
  · rintro scope w ⟨hw, hscope⟩
    exact ⟨by omega, hscope⟩
  · rintro scope binders w w' hbinders ⟨hw, -⟩ hshift
    rw [Variable.shift_of_unassigned hw] at hshift
    cases hshift
    refine ⟨hw, ?_⟩
    rw [length_under]
    exact hbinders

/-! ## The three walks -/

theorem respects_const_argument (d : Discipline) (c : String) :
    ∀ a ∈ [Term.const c], a.Respects d scope := by
  intro a ha
  rw [List.mem_singleton.mp ha]
  exact respects_const

section AppliedBack

variable (ht : t.WellFormed) (hassigned : t.Assigned) (hv : v.depth = 0)
  (hfree : t.LacksFree v.name) {body f : Term} (hbody : t.abstractConst c v = .ok body)

include ht hassigned hv hfree hbody

theorem eq_of_applied_back (hsize : t.Addressable) (hbind : body.bind [v.name] = .ok f)
    (hu : ContractsTo f [.const c] u) : u = t := by
  obtain ⟨body', hbody', hback⟩ : ∃ body', t.abstractConst c v = .ok body' ∧
      body'.rewrite (restoring v.name c) 0 = t :=
    Respects.exists_abstractConst hv (respects_and.mpr ⟨hassigned, hfree⟩)
  obtain rfl : body = body' := Except.ok.inj (hbody.symm.trans hbody')
  have hcount : [v.name].length < signedRange := by
    show 1 < signedRange
    decide
  calc u = body.substituteNames [v.name] [.const c] :=
        eq_substituteNames (List.cons_ne_nil _ _) rfl (ht.abstractConst hsize hbody)
          (respects_const_argument _ c) hcount (hsize.abstractConst hbody)
          (respects_const_argument _ c) hbind hu
    _ = body.rewrite (restoring v.name c) 0 := rfl
    _ = t := hback

/-- The depths of the body leave room for one binder. -/
theorem exists_applied_back {nesting : Nat} (hnesting : nesting + 1 < signedRange)
    (hwithin : t.Respects (.within (wordRange - 1) nesting) []) :
    ∃ f, body.bind [v.name] = .ok f ∧ ContractsTo f [.const c] t := by
  have hsize : t.Addressable := hwithin.addressable_of_within (by omega)
  have hdepth : wordRange - 1 + [v.name].length ≤ wordRange := by
    show wordRange - 1 + 1 ≤ wordRange
    decide
  have hroom : [v.name].length + nesting + 0 < signedRange := by
    rw [List.length_singleton]
    omega
  obtain ⟨f, u, hbind, hu⟩ := exists_bind_contractsTo_within (List.cons_ne_nil _ _) rfl
    (ht.abstractConst hsize hbody) (respects_const_argument _ c)
    (hwithin.abstractConst_within hv (by decide) hbody) hdepth (respects_const_argument _ c) hroom
  rw [eq_of_applied_back ht hassigned hv hfree hbody hsize hbind hu] at hu
  exact ⟨f, hbind, hu⟩

end AppliedBack

/-- **Abstracting a constant and applying to it is the identity.** The constant is turned into an
unassigned variable whose name no free variable of the term has, and the variable is bound; the
abstraction applied to the constant gives the term back, wherever in the term the constant stands,
and also if local definitions define it again. If all depths are below `2 ^ 64 - 1`, and there are
fewer than `2 ^ 63 - 1` binders around every place, no walk faults. -/
theorem abstractConst_applied_back (ht : t.WellFormed) (hassigned : t.Assigned) (c : String)
    (hv : v.depth = 0) (hfree : t.LacksFree v.name) :
    (t.Addressable → ∀ body f u, t.abstractConst c v = .ok body → body.bind [v.name] = .ok f →
      ContractsTo f [.const c] u → u = t) ∧
    ∀ nesting, nesting + 1 < signedRange → t.Respects (.within (wordRange - 1) nesting) [] →
      ∃ body f, t.abstractConst c v = .ok body ∧ body.bind [v.name] = .ok f ∧
        ContractsTo f [.const c] t := by
  constructor
  · intro hsize body f u hbody hbind hu
    exact eq_of_applied_back ht hassigned hv hfree hbody hsize hbind hu
  · intro nesting hnesting hwithin
    obtain ⟨body, hbody, -⟩ :=
      Respects.exists_abstractConst hv (respects_and.mpr ⟨hassigned, hfree⟩)
    obtain ⟨f, hbind, hu⟩ := exists_applied_back ht hassigned hv hfree hbody hnesting hwithin
    exact ⟨body, f, hbody, hbind, hu⟩

/-- The constant `k` below a binder that has the name of the new variable, in an instruction, and in
blocks of definitions of which two define `k` again. A free occurrence of the last depth but one is
pushed and comes back. -/
theorem abstractConst_applied_back_past_definitions :
    let k : Term := .const "k"
    let z : Nat → Term := fun depth => .var ⟨"z", depth⟩
    let hidden : Term := .list [.define .letIn "k" k k, .recur [("f", k), ("k", .const "f")] k]
    let t : Term := .app (.abs [⟨"x", 2⟩, ⟨"y", 1⟩] (.list [.var ⟨"x", 2⟩, k, z 3]))
      (.list [.instr ⟨"isZero", 1, some "isZero"⟩ [k], .recur [("f", k)] k, hidden,
        z 18446744073709551614])
    let body : Term := .app (.abs [⟨"x", 2⟩, ⟨"y", 1⟩] (.list [.var ⟨"x", 2⟩, .var ⟨"x", 3⟩, z 4]))
      (.list [.instr ⟨"isZero", 1, some "isZero"⟩ [.var ⟨"x", 1⟩],
        .recur [("f", .var ⟨"x", 1⟩)] (.var ⟨"x", 1⟩), hidden, z 18446744073709551615])
    t.WellFormed ∧ t.Assigned ∧ t.LacksFree "x" ∧ t.Respects (.within (wordRange - 1) 2) [] ∧
      (t.abstractConst "k" ⟨"x", 0⟩ >>= Term.bind ["x"]) = .ok (.abs [⟨"x", 1⟩] body) ∧
      ContractsTo (.abs [⟨"x", 1⟩] body) [k] t := by
  intro k z hidden t body
  have ht : t.WellFormed := by decide
  have hassigned : t.Assigned := by decide
  have hfree : t.LacksFree "x" := by decide
  have hdepths : t.Respects (.within (wordRange - 1) 2) [] := by decide
  have hf : (t.abstractConst "k" ⟨"x", 0⟩ >>= Term.bind ["x"]) = .ok (.abs [⟨"x", 1⟩] body) :=
    rfl
  have hback := @abstractConst_applied_back ⟨"x", 0⟩ t ht hassigned "k" rfl hfree
  obtain ⟨body', f, hbody, hbind, hu⟩ := hback.2 2 (by decide) hdepths
  obtain ⟨body'', hbody', hbind'⟩ := bind_eq_ok.mp hf
  rw [hbody] at hbody'
  cases hbody'
  rw [hbind] at hbind'
  cases hbind'
  exact ⟨ht, hassigned, hfree, hdepths, hf, hu⟩

/-- A free occurrence of the last depth cannot be pushed past the new binder, and so it cannot be
bound over at all. -/
theorem abstractConst_unbound_last_depth :
    let t : Term := .var ⟨"y", 18446744073709551615⟩
    t.WellFormed ∧ t.Assigned ∧ t.LacksFree "x" ∧ t.abstractConst "c" ⟨"x", 0⟩ = .ok t ∧
      t.bind ["x"] = .error .overflow := by
  exact ⟨by decide, by decide, by decide, rfl, rfl⟩

end Term

end IndexedLambda
