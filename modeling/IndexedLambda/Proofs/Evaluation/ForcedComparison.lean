import IndexedLambda.Proofs.Evaluation.Equivalence
import IndexedLambda.Proofs.Evaluation.SpineReduction
import IndexedLambda.Proofs.Evaluation.WellFormed
/-!
# Comparing a term with its forced form

Computational equality forces both sides once before it looks at them. When a term is compared with its
forced form, that form is forced a second time. So the two are found equal where forcing a second time
changes nothing that the comparison would see: the forced form stays as it is, or only its operator or
the parts of a local definition are forced further, and of those the same is true. `Term.StaysForced`
says this. A normal spine that does not end in a local definition stays as it is.

Forcing does not always go so far. An argument that is a redex comes to the front as it is, and if the
second forcing contracts it to something that is no application, then the comparison tells the term from
its forced form.
-/

namespace IndexedLambda.Term

variable {natives : InstructionSet} {n m : Nat} {t t' t'' : Term}

/-- To force the forced form again changes nothing, or only parts of it of which the same is true. -/
inductive StaysForced (natives : InstructionSet) : Term → Prop
  | fixed {n m : Nat} {t t' : Term} : force natives n t = .ok t' → force natives m t' = .ok t' →
      StaysForced natives t
  /-- An operator that does not come to take arguments. -/
  | app {n : Nat} {t l r : Term} : force natives n t = .ok (.app l r) →
      (∀ m l', force natives m l = .ok l' → l'.isApplicable = false) → StaysForced natives l →
      StaysForced natives t
  | define {n : Nat} {t a b : Term} {form : LetForm} {x : String} :
      force natives n t = .ok (.define form x a b) → StaysForced natives a → StaysForced natives b →
      StaysForced natives t
  | recur {n : Nat} {t b : Term} {defs : List (String × Term)} :
      force natives n t = .ok (.recur defs b) → (∀ p ∈ defs, StaysForced natives p.2) →
      StaysForced natives b → StaysForced natives t

/-- The spine ends in a local definition. -/
def endsInDefinition : Term → Bool
  | .app l _ => l.endsInDefinition
  | .define _ _ _ _ | .recur _ _ => true
  | _ => false

/-- Forcing has nothing to do on a normal spine. -/
theorem force_spine {scope : List String} (ht : t.Respects .instructionFree scope)
    (hspine : t.SpineNormal) (hend : t.endsInDefinition = false) : ∃ m, force natives m t = .ok t := by
  induction t using induction_on with
  | app l r ihl _ =>
      have hl := (respects_app.mp ht).1
      obtain ⟨m, hm⟩ := ihl hl hspine.2 hend
      refine ⟨m + 1, ?_⟩
      have hblocked : l.isApplicable = false := (isApplicable_eq_isAbs hl).trans hspine.1
      rw [force]
      refine bind_eq_ok.mpr ⟨l, hm, ?_⟩
      rw [hblocked]
      rfl
  | instr head args => exact absurd (respects_instr.mp ht).1 id
  | define | recur => cases hend
  | _ => exact ⟨1, rfl⟩

/-- A comparison with a side that is known when it is forced. -/
theorem affirms_of_forced {compare : Term → Term → Except Fault Bool} {u : Term}
    (h : force natives n t = .ok t')
    (hcompare : ∀ u', force natives m u = .ok u' → Affirms (compare t' u')) :
    Affirms (do compare (← force natives m t) (← force natives m u)) := by
  refine .bind fun t₁ ht₁ => .bind fun u' hu' => ?_
  rw [force_unique ht₁ h]
  exact hcompare u' hu'

theorem StaysForced.affirms (hstays : StaysForced natives t) (h : force natives n t = .ok t') :
    Affirms (convertible natives (m + 1) t t') := by
  induction hstays generalizing n m t' with
  | fixed hforced hfixed =>
      obtain rfl := force_unique h hforced
      exact convertible_alike fun t₁ t₂ h₁ h₂ =>
        (force_unique h₁ h).trans (force_unique h₂ hfixed).symm
  | @app _ _ l r hforced hblocked _ ih =>
      obtain rfl := force_unique h hforced
      rw [convertible]
      refine affirms_of_forced h fun t'' ht'' => ?_
      cases m with
      | zero => cases ht''
      | succ m =>
          obtain ⟨l', hl', hcase⟩ := force_app ht''
          rw [hblocked m l' hl'] at hcase
          obtain ⟨hfed, -⟩ | ⟨-, rfl⟩ := hcase
          · cases hfed
          · exact .both (ih hl') (convertible_self _ r)
  | define hforced _ _ iha ihb =>
      obtain rfl := force_unique h hforced
      rw [convertible]
      refine affirms_of_forced h fun t'' ht'' => ?_
      cases m with
      | zero => cases ht''
      | succ m =>
          obtain ⟨a', b', ha', hb', rfl⟩ := force_define ht''
          simp only [ne_eq, not_true, if_false]
          exact .both (iha ha') (ihb hb')
  | recur hforced _ _ ihd ihb =>
      obtain rfl := force_unique h hforced
      rw [convertible]
      refine affirms_of_forced h fun t'' ht'' => ?_
      cases m with
      | zero => cases ht''
      | succ m =>
          obtain ⟨defs', b', hdefs', hb', rfl⟩ := force_recur ht''
          refine .both (allPaired_affirms ?_) (ihb hb')
          -- each definition keeps its name and is forced
          have hboth := (List.forall₂_and_left _ _).mpr ⟨fun p hp => hp, hdefs'⟩
          refine hboth.imp fun p q hpq => ?_
          rw [if_pos hpq.2.1]
          exact ihd p hpq.1 hpq.2.2

/-- **A term and its forced form are found equal where the forced form stays.** A comparison of a
well-formed term without instructions with its forced form, if it ends, holds whenever forcing again
changes nothing in the forced form, or only its operator or the parts of a local definition, of which the
same is true. So it holds if the forced form has a normal spine that does not end in a local definition.
It fails if the forced form is an application and forcing it again gives something else. -/
theorem convertible_forced {natives : InstructionSet} {n m : Nat} {t t' : Term} {answer : Bool}
    (ht : t.WellFormed) (hsize : t.Addressable) (hfree : t.InstructionFree)
    (h : force natives n t = .ok t') (hanswer : convertible natives m t t' = .ok answer) :
    (StaysForced natives t → answer = true) ∧
      (t'.SpineNormal → t'.endsInDefinition = false → answer = true) ∧
      ∀ k l r t'', t' = .app l r → force natives k t' = .ok t'' → (∀ l'' r'', t'' ≠ .app l'' r'') →
        answer = false := by
  cases m with
  | zero => cases hanswer
  | succ m =>
      have hstays (hstays : StaysForced natives t) : answer = true := hstays.affirms h answer hanswer
      refine ⟨hstays, fun hspine hend => ?_, ?_⟩
      · have hsound : t.Respects (Discipline.sound.and .instructionFree) [] :=
          respects_and.mpr ⟨respects_and.mpr ⟨ht, hsize⟩, hfree⟩
        have ht' := ((evaluable_instructionFree natives).preserves n).force ⟨rfl, rfl⟩ hsound h
        obtain ⟨k, hk⟩ : ∃ k, force natives k t' = .ok t' :=
          force_spine (respects_and.mp ht').2 hspine hend
        exact hstays (.fixed h hk)
      · rintro k l r t'' rfl ht'' happ
        rw [convertible] at hanswer
        obtain ⟨t₁, ht₁, hanswer⟩ := bind_eq_ok.mp hanswer
        obtain ⟨t₂, ht₂, hanswer⟩ := bind_eq_ok.mp hanswer
        obtain rfl := force_unique ht₁ h
        obtain rfl := force_unique ht₂ ht''
        cases t₂ with
        | app l'' r'' => exact absurd rfl (happ l'' r'')
        | _ =>
            cases hanswer
            exact decide_eq_false (by simp [StrictEq, erased, mapHeads])

/-- `let d = id (id c) in id (id (id f)) e`, where `id` is `λx. x`: forcing leaves a redex in the
definition and two in the body. -/
theorem convertible_forced_of_let :
    let id : Term := .abs [⟨"x", 1⟩] (.var ⟨"x", 1⟩)
    let t := define .letIn "d" (.app id (.app id (.const "c")))
      (.app (.app id (.app id (.app id (.const "f")))) (.const "e"))
    let t' := define .letIn "d" (.app id (.const "c"))
      (.app (.app id (.app id (.const "f"))) (.const "e"))
    force (fun _ _ => .fail none) 20 t = .ok t' ∧ ∃ answer,
      convertible (fun _ _ => .fail none) 20 t t' = .ok answer ∧ answer = true := by
  intro id t t'
  have hforce : force (fun _ _ => .fail none) 20 t = .ok t' := rfl
  have hcompare : convertible (fun _ _ => .fail none) 20 t t' = .ok true := rfl
  have hoperator : force (fun _ _ => .fail none) 20 (.app id (.const "f")) = .ok (.const "f") := rfl
  refine ⟨hforce, true, hcompare,
    (convertible_forced (by decide) (by decide) (by decide) hforce hcompare).1 ?_⟩
  refine .define hforce (.fixed (n := 20) (m := 20) rfl rfl) (.app (n := 20) rfl (fun m l' hl' => ?_)
    (.fixed hoperator (m := 20) rfl))
  rw [force_unique hl' hoperator]
  rfl

/-- `(λx. x) ((λy. y) c)` is forced to `(λy. y) c`, and the comparison takes the two for different. -/
theorem convertible_not_forced :
    let forced := app (.abs [⟨"y", 1⟩] (.var ⟨"y", 1⟩)) (.const "c")
    let t := app (.abs [⟨"x", 1⟩] (.var ⟨"x", 1⟩)) forced
    t.WellFormed ∧ t.Addressable ∧ t.InstructionFree ∧ t.Assigned ∧
      force (fun _ _ => .fail none) 20 t = .ok forced ∧
      convertible (fun _ _ => .fail none) 20 t forced = .ok false := by
  exact ⟨by decide, by decide, by decide, by decide, rfl, rfl⟩

end IndexedLambda.Term
