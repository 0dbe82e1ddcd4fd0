import IndexedLambda.Evaluation.Stock
import IndexedLambda.Proofs.Evaluation.Run
/-!
# Well-formed terms under evaluation

Every operation on terms keeps them well formed, and evaluation does so under one condition. An
argument is prepared when it is applied: its unassigned occurrences become free. The preparation does not
look inside abstractions, because binding has left nothing unassigned there. A term that has been given
an unassigned occurrence below a binder in some other way can reach an instruction that runs below a
binder; what the instruction forces is prepared there as if it stood outside, and the occurrence is
caught by the binder.

So forcing and application keep well-formed terms whose unassigned occurrences lie outside all binders
(`Term.AssignedInside`), as they do in every term that the constructors build, and they keep all
well-formed terms without instructions. The step on the operator spine prepares nothing, and it
has to be given terms without unassigned occurrences, or without instructions.
-/

namespace IndexedLambda

/-- Unassigned occurrences lie outside all binders. -/
def Discipline.assignedInside : Discipline where
  occurrence scope v := v.depth = 0 → scope = []
  binders _ _ := True
  arguments _ _ := True
  definitions _ := True

instance : Discipline.assignedInside.Decides where
  occurrence scope v := inferInstanceAs (Decidable (v.depth = 0 → scope = []))
  binders _ _ := inferInstanceAs (Decidable True)
  arguments _ _ := inferInstanceAs (Decidable True)
  definitions _ := inferInstanceAs (Decidable True)

/-- On arguments that respect a discipline in a scope, the native actions keep to it. -/
def InstructionSet.Keeps (natives : InstructionSet) (d : Discipline) (scope : List String) : Prop :=
  ∀ head args, (∀ a ∈ args, Term.Respects d scope a) → (natives head args).Keeps (Term.Respects d scope)

/-- The native actions map sound arguments to sound results, below any binders on terms without
unassigned occurrences, and outside also on terms with some. -/
structure InstructionSet.Sound (natives : InstructionSet) : Prop where
  inside : ∀ scope, natives.Keeps (Discipline.sound.and .assigned) scope
  outside : natives.Keeps (Discipline.sound.and .assignedInside) []

namespace Term

/-- No occurrence below a binder is unassigned. -/
def AssignedInside (t : Term) : Prop := t.Respects .assignedInside []

instance (t : Term) : Decidable t.AssignedInside :=
  inferInstanceAs (Decidable (t.Respects .assignedInside []))

variable {natives : InstructionSet} {scope : List String} {t : Term}

theorem Respects.assignedInside (ht : t.Respects .assigned scope) : t.Respects .assignedInside scope :=
  ht.imp ⟨fun _ _ hv hzero => absurd hzero hv, fun _ _ _ => trivial, fun _ _ _ => trivial,
    fun _ _ => trivial⟩

/-- Below a binder there is nothing unassigned. -/
theorem Respects.assigned_of_ne_nil (hscope : scope ≠ []) (ht : t.Respects .assignedInside scope) :
    t.Respects .assigned scope := by
  refine ht.imp ⟨fun inner v hv hzero => ?_, fun _ _ _ => trivial, fun _ _ _ => trivial,
    fun _ _ => trivial⟩
  exact hscope (List.append_eq_nil_iff.mp (hv hzero)).2

/-- An abstraction has a binder, so nothing inside is unassigned. -/
theorem Respects.assigned_of_abs {binders : List Variable} {body : Term}
    (hf : (abs binders body).Respects (Discipline.sound.and .assignedInside) scope) :
    (abs binders body).Respects (Discipline.sound.and .assigned) scope := by
  obtain ⟨hsound, hinside⟩ := respects_and.mp hf
  have hne : binders ≠ [] := (respects_abs.mp hsound).1.1.1
  refine respects_and.mpr ⟨hsound, respects_abs.mpr ⟨trivial,
    (respects_abs.mp hinside).2.assigned_of_ne_nil fun hnil => hne ?_⟩⟩
  have hlength := congrArg List.length hnil
  rw [length_under, List.length_nil] at hlength
  exact List.length_eq_zero_iff.mp (by omega)

theorem Built.assignedInside {t : Term} (ht : t.Built) : t.AssignedInside := by
  induction ht with
  | var v => exact fun _ => rfl
  | const c => exact respects_const
  | app _ _ ihl ihr => exact respects_app.mpr ⟨ihl, ihr⟩
  | list _ ih => exact respects_list.mpr ih
  | instr _ h ih =>
      obtain ⟨-, rfl⟩ := ofInstruction_eq_ok h
      exact respects_instr.mpr ⟨trivial, ih⟩
  | define form x _ _ iha ihb => exact respects_define.mpr ⟨iha, ihb⟩
  | recur _ _ h ihd ihb =>
      obtain ⟨-, rfl⟩ := ofDefinitions_eq_ok h
      exact respects_recur.mpr ⟨trivial, ihd, ihb⟩
  | bind hbuilt h _ => exact (WellFormed.bind hbuilt.wellFormed h).2.assignedInside

/-! ## The two ways in which evaluation keeps terms sound -/

/-- A prepared argument has no unassigned occurrence left. -/
theorem Respects.assigned_assignFree (ht : t.Respects (Discipline.sound.and .assignedInside) []) :
    t.assignFree.Respects (Discipline.sound.and .assigned) [] := by
  refine Respects.assignFree (d := Discipline.sound.and .assignedInside) (fun v _ => ?_)
    (fun _ _ hf => hf.assigned_of_abs) (fun _ _ h => h) (fun _ h => h) ht
  rw [Term.assignFree]
  refine respects_and.mpr ⟨⟨var_wellFormed _, trivial⟩, ?_⟩
  show (if v.isUnassigned then (⟨v.name, 1⟩ : Variable) else v).depth ≠ 0
  split
  · exact Nat.one_ne_zero
  · rename_i hassigned
    simpa [Variable.isUnassigned] using hassigned

theorem evaluable_instructionFree (natives : InstructionSet) :
    Evaluable natives (Discipline.sound.and .instructionFree)
      (fun d scope => d = Discipline.sound.and .instructionFree ∧ scope = []) := by
  refine evaluable_of_instructionFree natives
    (Discipline.sound_portable.and Discipline.instructionFree_portable)
    (fun ht => (respects_and.mp ht).1) (fun h => h.2) ?_
  rintro scope arg rfl harg
  exact harg.assignFree_of_var fun v => ⟨⟨var_wellFormed v, trivial⟩, trivial⟩

/-- An evaluation that starts outside may be given unassigned occurrences there; below binders there are
none from the beginning, so an instruction may run anywhere. -/
theorem evaluable_assignedInside (hnatives : natives.Sound) :
    Evaluable natives (Discipline.sound.and .assigned) (fun d scope =>
      d = Discipline.sound.and .assigned ∨ d = Discipline.sound.and .assignedInside ∧ scope = []) where
  portable := Discipline.sound_portable.and Discipline.assigned_portable
  sound ht := (respects_and.mp ht).1
  function := by
    rintro d scope binders body (rfl | ⟨rfl, rfl⟩) hf
    · exact hf
    · exact hf.assigned_of_abs
  argument := by
    rintro d scope arg (rfl | ⟨rfl, rfl⟩) harg
    · rwa [(respects_and.mp harg).2.assignFree_eq_self]
    · exact harg.assigned_assignFree
  result := by
    rintro d scope t (rfl | ⟨rfl, rfl⟩) ht
    · exact ht
    · exact respects_and.mpr ⟨(respects_and.mp ht).1, (respects_and.mp ht).2.assignedInside⟩
  restart _ := .inl rfl
  held := by
    rintro d scope head k (rfl | ⟨rfl, -⟩) - hroom
    · exact ⟨⟨hroom, trivial⟩, trivial⟩
    · exact ⟨⟨hroom, trivial⟩, trivial⟩
  action := by
    rintro d scope head args (rfl | ⟨rfl, rfl⟩) h
    · exact hnatives.inside scope head args (respects_instr.mp h).2
    · exact hnatives.outside head args (respects_instr.mp h).2

/-! ## Evaluation -/

theorem wellFormed_of_sound {d : Discipline} (ht : t.Respects (Discipline.sound.and d) []) :
    t.WellFormed :=
  (respects_and.mp (respects_and.mp ht).1).1

section Evaluation

variable {n : Nat} {t' arg body : Term} {binders : List Variable} {more : Bool}
  (hnatives : natives.Sound)

include hnatives

theorem WellFormed.force (ht : t.WellFormed) (hsize : t.Addressable)
    (hkind : t.InstructionFree ∨ t.AssignedInside) (h : force natives n t = .ok t') :
    t'.WellFormed := by
  have hsound := respects_and.mpr ⟨ht, hsize⟩
  rcases hkind with hfree | hinside
  · exact wellFormed_of_sound (((evaluable_instructionFree natives).preserves n).force ⟨rfl, rfl⟩
      (respects_and.mpr ⟨hsound, hfree⟩) h)
  · exact wellFormed_of_sound (((evaluable_assignedInside hnatives).preserves n).force
      (.inr ⟨rfl, rfl⟩) (respects_and.mpr ⟨hsound, hinside⟩) h)

theorem WellFormed.apply (hf : (abs binders body).WellFormed) (harg : arg.WellFormed)
    (hfsize : (abs binders body).Addressable) (hargsize : arg.Addressable)
    (hkind : (abs binders body).InstructionFree ∧ arg.InstructionFree ∨
      (abs binders body).AssignedInside ∧ arg.AssignedInside)
    (h : apply natives n binders body arg = .ok t') : t'.WellFormed := by
  have hfsound := respects_and.mpr ⟨hf, hfsize⟩
  have hargsound := respects_and.mpr ⟨harg, hargsize⟩
  rcases hkind with ⟨hffree, hargfree⟩ | ⟨hfinside, harginside⟩
  · exact wellFormed_of_sound (((evaluable_instructionFree natives).preserves n).apply ⟨rfl, rfl⟩
      (respects_and.mpr ⟨hfsound, hffree⟩) (respects_and.mpr ⟨hargsound, hargfree⟩) h)
  · exact wellFormed_of_sound (((evaluable_assignedInside hnatives).preserves n).apply
      (.inr ⟨rfl, rfl⟩) (respects_and.mpr ⟨hfsound, hfinside⟩)
      (respects_and.mpr ⟨hargsound, harginside⟩) h)

theorem WellFormed.advance (ht : t.WellFormed) (hsize : t.Addressable)
    (hkind : t.InstructionFree ∨ t.Assigned) (h : advance natives n t = .ok (t', more)) :
    t'.WellFormed := by
  have hsound := respects_and.mpr ⟨ht, hsize⟩
  rcases hkind with hfree | hassigned
  · exact wellFormed_of_sound (((evaluable_instructionFree natives).preserves n).advance
      (respects_and.mpr ⟨hsound, hfree⟩) h)
  · exact wellFormed_of_sound (((evaluable_assignedInside hnatives).preserves n).advance
      (respects_and.mpr ⟨hsound, hassigned⟩) h)

end Evaluation

end Term

/-! ## The stock instructions -/

namespace Action

variable {P : Term → Prop} {args : List Term} {next : Term → List Term → Action}

theorem keeps_argument (index : Nat) (hargs : ∀ a ∈ args, P a)
    (hnext : ∀ t args', P t → (∀ a ∈ args', P a) → (next t args').Keeps P) :
    (argument args index next).Keeps P := by
  unfold argument
  split
  case h_1 t ht =>
    refine ⟨hargs t (List.mem_of_getElem? ht), fun forced hforced => hnext _ _ hforced fun a ha => ?_⟩
    rcases List.mem_or_eq_of_mem_set ha with ha | rfl
    · exact hargs a ha
    · exact hforced
  case h_2 => trivial

theorem keeps_argumentAt (position : Nat) (hargs : ∀ a ∈ args, P a)
    (hnext : ∀ t args', P t → (∀ a ∈ args', P a) → (next t args').Keeps P) :
    (argumentAt args position next).Keeps P := by
  unfold argumentAt
  split
  · trivial
  · exact keeps_argument _ hargs hnext

end Action

namespace Stock

variable {d : Discipline} {scope : List String} {t : Term}

theorem keeps_withList {who : String} {next : List Term → Action} (ht : t.Respects d scope)
    (hnext : ∀ elems, (∀ e ∈ elems, Term.Respects d scope e) →
      (next elems).Keeps (Term.Respects d scope)) :
    (withList who t next).Keeps (Term.Respects d scope) := by
  unfold withList
  split
  · exact hnext _ (Term.respects_list.mp ht)
  · trivial

theorem keeps_withNumber {who : String} {next : Nat → Action}
    (hnext : ∀ n, (next n).Keeps (Term.Respects d scope)) :
    (withNumber who t next).Keeps (Term.Respects d scope) := by
  unfold withNumber
  split
  case h_1 c =>
    cases counter? c with
    | none => trivial
    | some n => exact hnext n
  case h_2 => trivial

/-- A stock instruction answers with parts of what it was given, with constants, or with a Church
boolean. -/
theorem natives_keep (hbool : ∀ b, (Combinator.ofBool b).Respects d scope) :
    natives.Keeps d scope := by
  intro head args hargs
  unfold natives
  split
  case h_2 => trivial
  case h_1 s _ =>
    unfold action
    cases s with
    | fail | boom | boomAny => trivial
    | unit | count => exact Term.respects_const
    | raw => exact Term.respects_list.mpr hargs
    | strictEquality =>
        exact Action.keeps_argument 0 hargs fun _ _ _ hargs' =>
          Action.keeps_argument 1 hargs' fun _ _ _ _ => hbool _
    | boomText => exact Action.keeps_argument 0 hargs fun _ _ _ _ => trivial
    | first => exact Action.keeps_argument 0 hargs fun _ _ ht _ => ht
    | missing => exact Action.keeps_argument 5 hargs fun _ _ ht _ => ht
    | second => exact Action.keeps_argumentAt 2 hargs fun _ _ ht _ => ht
    | at0 => exact Action.keeps_argumentAt 0 hargs fun _ _ ht _ => ht
    | forceSecond =>
        exact Action.keeps_argument 1 hargs fun _ _ _ hargs' => Term.respects_list.mpr hargs'
    | head =>
        refine Action.keeps_argument 0 hargs fun _ _ ht _ => keeps_withList ht fun elems helems => ?_
        cases elems with
        | nil => trivial
        | cons e elems => exact ⟨helems e (by simp), fun _ hforced => hforced⟩
    | tail =>
        exact Action.keeps_argument 0 hargs fun _ _ ht _ => keeps_withList ht fun _ helems =>
          Term.respects_list.mpr fun e he => helems e (List.mem_of_mem_tail he)
    | cons =>
        refine Action.keeps_argument 1 hargs fun _ _ ht hargs' => keeps_withList ht fun _ helems =>
          Term.respects_list.mpr fun e he => ?_
        rcases List.mem_append.mp he with he | he
        · exact hargs' e (List.mem_of_mem_take he)
        · exact helems e he
    | succ | pred =>
        exact Action.keeps_argument 0 hargs fun _ _ _ _ => keeps_withNumber fun _ =>
          Term.respects_const
    | isZero =>
        exact Action.keeps_argument 0 hargs fun _ _ _ _ => keeps_withNumber fun _ => hbool _

theorem ofBool_sound (scope : List String) (b : Bool) :
    (Combinator.ofBool b).Respects (Discipline.sound.and .assigned) scope := by
  cases b <;> simp [Combinator.ofBool, Combinator.truth, Combinator.falsity, Discipline.sound,
    Discipline.and, Discipline.wellFormed, Discipline.addressable, Discipline.assigned, signedRange,
    under, Term.numbered]

theorem natives_sound : natives.Sound where
  inside scope := natives_keep (ofBool_sound scope)
  outside := natives_keep fun b =>
    have hbool := Term.respects_and.mp (ofBool_sound [] b)
    Term.respects_and.mpr ⟨hbool.1, hbool.2.assignedInside⟩

end Stock

/-! ## The invariant -/

namespace Term

/-- **Well-formedness is an invariant.** What the constructors build is well formed, and the operations
keep it so: binding, which also leaves nothing unassigned, raising, preparing an argument, turning a
constant into a variable, replacing, a beta step, an eta step. Forcing and application keep it when no
instruction occurs or nothing below a binder is unassigned, a step on the spine when no instruction occurs
or nothing at all is unassigned. -/
theorem wellFormed_invariant {natives : InstructionSet} (hnatives : natives.Sound) :
    (∀ t, Built t → t.WellFormed ∧ t.AssignedInside) ∧
    (∀ (t f : Term) names, t.WellFormed → t.bind names = .ok f → f.WellFormed ∧ f.Assigned) ∧
    (∀ (t t' : Term) (s : Shift), t.WellFormed → 0 ≤ s.delta → t.shift s = .ok t' → t'.WellFormed) ∧
    (∀ t : Term, t.WellFormed → t.assignFree.WellFormed) ∧
    (∀ (t t' : Term) name v, t.WellFormed → t.Addressable → t.abstractConst name v = .ok t' →
      t'.WellFormed) ∧
    (∀ (t t' u : Term) v, t.WellFormed → t.Addressable → u.WellFormed → t.replace v u = .ok t' →
      t'.WellFormed) ∧
    (∀ binders body (arg t' : Term) flag, (abs binders body).WellFormed →
      (abs binders body).Addressable → arg.WellFormed → contract binders body arg = .ok (t', flag) →
      t'.WellFormed) ∧
    (∀ binders body (t' : Term), (abs binders body).WellFormed → (abs binders body).Addressable →
      etaReduce binders body = .ok t' → t'.WellFormed) ∧
    (∀ n (t t' : Term), t.WellFormed → t.Addressable → t.InstructionFree ∨ t.AssignedInside →
      force natives n t = .ok t' → t'.WellFormed) ∧
    (∀ n binders body (arg t' : Term), (abs binders body).WellFormed → arg.WellFormed →
      (abs binders body).Addressable → arg.Addressable →
      (abs binders body).InstructionFree ∧ arg.InstructionFree ∨
        (abs binders body).AssignedInside ∧ arg.AssignedInside →
      apply natives n binders body arg = .ok t' → t'.WellFormed) ∧
    (∀ n (t t' : Term) more, t.WellFormed → t.Addressable → t.InstructionFree ∨ t.Assigned →
      advance natives n t = .ok (t', more) → t'.WellFormed) := by
  refine ⟨fun t ht => ⟨ht.wellFormed, ht.assignedInside⟩, fun t f names ht h => ht.bind h,
    fun t t' s ht hs h => ht.shift hs h, fun t ht => ht.assignFree,
    fun t t' name v ht hsize h => ht.abstractConst hsize h,
    fun t t' u v ht hsize hu h => ht.replace hsize hu h,
    fun binders body arg t' flag hf hsize harg h => ?_,
    fun binders body t' hf hsize h => hf.etaReduce hsize h,
    fun n t t' ht hsize hkind h => ht.force hnatives hsize hkind h,
    fun n binders body arg t' hf harg hfsize hargsize hkind h =>
      hf.apply hnatives harg hfsize hargsize hkind h,
    fun n t t' more ht hsize hkind h => ht.advance hnatives hsize hkind h⟩
  exact Respects.contract Discipline.wellFormed_portable
    (respects_and.mpr ⟨respects_and.mpr ⟨hf, hsize⟩, hf⟩) harg h

/-- `λx y. ((λa. a) (isZero 0)) x` on an unassigned `z`: the instruction runs below the binder of `y`, and
`z` is free there because it was prepared outside. -/
theorem wellFormed_invariant_of_prepared_argument :
    let f := abs [⟨"x", 2⟩, ⟨"y", 1⟩] (.app (.app (.abs [⟨"a", 1⟩] (.var ⟨"a", 1⟩))
      (.instr (Stock.nativeHead .isZero) [.const "0"])) (.var ⟨"x", 2⟩))
    let result := abs [⟨"y", 1⟩] (.abs [⟨"f", 1⟩] (.var ⟨"z", 3⟩))
    force Stock.natives 20 (.app f (.var ⟨"z", 0⟩)) = .ok result ∧ result.WellFormed := by
  intro f result
  have hforce : force Stock.natives 20 (.app f (.var ⟨"z", 0⟩)) = .ok result := rfl
  refine ⟨hforce, ?_⟩
  obtain ⟨-, -, -, -, -, -, -, -, hkeeps, -, -⟩ := wellFormed_invariant Stock.natives_sound
  exact hkeeps 20 _ _ (by decide) (by decide) (.inr (by decide)) hforce

/-- `λx y. ((λa. a) (isZero 0)) z` with `z` unassigned below its binders, on a constant: what comes out
has a `z` that points to the binder of `y`. -/
theorem apply_not_wellFormed :
    let body := Term.app (.app (.abs [⟨"a", 1⟩] (.var ⟨"a", 1⟩))
      (.instr (Stock.nativeHead .isZero) [.const "0"])) (.var ⟨"z", 0⟩)
    let result := abs [⟨"y", 1⟩] (.abs [⟨"f", 1⟩] (.var ⟨"z", 2⟩))
    Stock.natives.Sound ∧ (∀ scope, Stock.natives.Keeps .wellFormed scope) ∧
      (abs [⟨"x", 2⟩, ⟨"y", 1⟩] body).WellFormed ∧ (const "c").WellFormed ∧
      apply Stock.natives 20 [⟨"x", 2⟩, ⟨"y", 1⟩] body (.const "c") = .ok result ∧
      ¬ result.WellFormed := by
  refine ⟨Stock.natives_sound, fun scope => Stock.natives_keep fun b => ?_, by decide, by decide, rfl,
    by decide⟩
  exact (respects_and.mp (respects_and.mp (Stock.ofBool_sound scope b)).1).1

end Term

end IndexedLambda
