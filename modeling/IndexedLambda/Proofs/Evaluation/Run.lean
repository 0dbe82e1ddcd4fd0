import Mathlib.Data.List.Forall2
import IndexedLambda.Evaluation.Reduction
import IndexedLambda.Proofs.Term.Contraction
/-!
# What a run of the evaluator does

The functions of `Evaluation/Reduction` are opened here, once. `ForceCase`, `FeedCase`, `InstrCase` and
`AdvanceCase` list what a call that gives a result can have done, `apply_eq_ok`, `settle_eq_ok` and
`call_eq_ok` say the same of the functions with one way to go. Every case speaks of calls with one unit
of fuel less, so a property of all results is proved by induction on the fuel, case by case.

`Evaluable` is what a discipline has to satisfy for evaluation to keep it, and `Evaluable.preserves` is
that induction. An evaluation starts at a place where an argument may be prepared: its unassigned
occurrences become free there. From then on the evaluator steps below the binders that remain, where
nothing is prepared, unless an instruction runs there and forces a term. So there are two disciplines,
one for the places where an evaluation may start and one for the steps inside it.
-/

namespace IndexedLambda

/-- A walk over a list that ends well has ended well for every element. -/
theorem mapM_eq_ok {ε α β : Type} {f : α → Except ε β} {as : List α} {bs : List β}
    (h : as.mapM f = .ok bs) : List.Forall₂ (fun a b => f a = .ok b) as bs := by
  induction as generalizing bs with
  | nil => cases h; exact .nil
  | cons a as ih =>
      rw [List.mapM_cons] at h
      obtain ⟨b, hb, h⟩ := bind_eq_ok.mp h
      obtain ⟨bs', hbs, h⟩ := bind_eq_ok.mp h
      cases h
      exact .cons hb (ih hbs)

theorem exists_of_mem_right {α β : Type} {R : α → β → Prop} {as : List α} {bs : List β} {b : β}
    (h : List.Forall₂ R as bs) (hb : b ∈ bs) : ∃ a ∈ as, R a b := by
  induction h with
  | nil => cases hb
  | cons hab _ ih =>
      rcases List.mem_cons.mp hb with rfl | hb
      · exact ⟨_, List.mem_cons_self, hab⟩
      · obtain ⟨a, ha, hab⟩ := ih hb
        exact ⟨a, List.mem_cons_of_mem _ ha, hab⟩

/-- Every answer of the action has the property, given that every forced term it receives has it, and it
asks for terms with the property only. -/
def Action.Keeps (P : Term → Prop) : Action → Prop
  | .answer result => P result
  | .fail _ => True
  | .force subject next => P subject ∧ ∀ t, P t → (next t).Keeps P

theorem Action.Keeps.run {P : Term → Prop} {action : Action} {force : Term → Except Fault Term}
    {result : Term} (haction : action.Keeps P)
    (hforce : ∀ t t', P t → force t = .ok t' → P t') (h : action.run force = .ok result) :
    P result := by
  induction action with
  | answer t => cases h; exact haction
  | fail text => cases h
  | force subject next ih =>
      obtain ⟨forced, hforced, h⟩ := bind_eq_ok.mp h
      exact ih forced (haction.2 forced (hforce _ _ haction.1 hforced)) h

theorem recover_eq_ok {x : Except Fault Term} {t : Term} (h : recover x = .ok t) :
    x = .ok t ∨ ∃ text, t = .const text := by
  obtain ⟨result, hresult, h⟩ := bind_eq_ok.mp h
  cases result with
  | error text => cases h; exact .inr ⟨text, rfl⟩
  | ok u =>
      cases h
      cases x with
      | ok v => cases hresult; exact .inl rfl
      | error f => cases f <;> cases hresult

namespace Term

variable {natives : InstructionSet} {n : Nat}

/-! ## The cases -/

section Cases

variable (natives n)

inductive ForceCase : Term → Term → Prop
  /-- The head is exposed already. -/
  | exposed (t : Term) : ForceCase t t
  | applied {l r operator result : Term} : force natives n l = .ok operator →
      feed natives n operator r = .ok result → ForceCase (.app l r) result
  /-- The operator does not take arguments. -/
  | blocked {l operator : Term} (r : Term) : force natives n l = .ok operator →
      ForceCase (.app l r) (.app operator r)
  | called {head : InstructionHead} {args : List Term} {result : Term} :
      call natives n head args = .ok result → ForceCase (.instr head args) result
  | define {a a' b b' : Term} (form : LetForm) (x : String) : force natives n a = .ok a' →
      force natives n b = .ok b' → ForceCase (.define form x a b) (.define form x a' b')
  | recur {defs defs' : List (String × Term)} {b b' : Term} :
      List.Forall₂ (fun p q => p.1 = q.1 ∧ force natives n p.2 = .ok q.2) defs defs' →
      force natives n b = .ok b' → ForceCase (.recur defs b) (.recur defs' b')

inductive FeedCase : Term → Term → Term → Prop
  | applied {binders : List Variable} {body arg result : Term} :
      apply natives n binders body arg = .ok result → FeedCase (.abs binders body) arg result
  | handed {head : InstructionHead} {args : List Term} {arg result : Term} :
      feedInstr natives n head args arg = .ok result → FeedCase (.instr head args) arg result
  | blocked (t arg : Term) : FeedCase t arg (.app t arg)

inductive InstrCase : InstructionHead → List Term → Term → Term → Prop
  /-- The instruction had all its arguments and runs before it is applied. -/
  | ready {head : InstructionHead} {args : List Term} {arg result t : Term} :
      call natives n head args = .ok result → force natives n (.app result arg) = .ok t →
      InstrCase head args arg t
  | last {head : InstructionHead} {args : List Term} {arg t : Term} : args.length < head.arity →
      call natives n head (args ++ [arg]) = .ok t → InstrCase head args arg t
  | held {head : InstructionHead} {args : List Term} {arg : Term} : args.length < head.arity →
      InstrCase head args arg (.instr head (args ++ [arg]))

inductive AdvanceCase : Term → Term → Bool → Prop
  | exposed (t : Term) : AdvanceCase t t false
  /-- The operator has made a step and asks for another one. -/
  | inside {l operator : Term} (r : Term) : advance natives n l = .ok (operator, true) →
      AdvanceCase (.app l r) (.app operator r) true
  | contracted {l r body result : Term} {binders : List Variable} {more : Bool} :
      advance natives n l = .ok (.abs binders body, false) →
      contract binders body r = .ok (result, more) → AdvanceCase (.app l r) result more
  | handed {l r result : Term} {head : InstructionHead} {args : List Term} :
      advance natives n l = .ok (.instr head args, false) →
      feedInstr natives n head args r = .ok result → AdvanceCase (.app l r) result false
  | blocked {l operator : Term} (r : Term) : advance natives n l = .ok (operator, false) →
      AdvanceCase (.app l r) (.app operator r) false
  | called {head : InstructionHead} {args : List Term} {result : Term} :
      call natives n head args = .ok result → AdvanceCase (.instr head args) result false

end Cases

theorem eq_of_force_abs {binders : List Variable} {body t' : Term}
    (h : force natives n (.abs binders body) = .ok t') : t' = .abs binders body := by
  cases n with
  | zero => cases h
  | succ n => cases h; rfl

/-- What has become of the operator decides whether it is fed. -/
theorem force_app {l r t' : Term} (h : force natives (n + 1) (.app l r) = .ok t') :
    ∃ operator, force natives n l = .ok operator ∧
      (operator.isApplicable = true ∧ feed natives n operator r = .ok t' ∨
        operator.isApplicable = false ∧ t' = .app operator r) := by
  rw [force] at h
  obtain ⟨operator, hoperator, h⟩ := bind_eq_ok.mp h
  refine ⟨operator, hoperator, ?_⟩
  split at h
  case isTrue happlicable => exact .inl ⟨happlicable, h⟩
  case isFalse hblocked =>
    cases h
    exact .inr ⟨by simpa using hblocked, rfl⟩

theorem force_define {form : LetForm} {x : String} {a b t' : Term}
    (h : force natives (n + 1) (.define form x a b) = .ok t') :
    ∃ a' b', force natives n a = .ok a' ∧ force natives n b = .ok b' ∧ t' = .define form x a' b' := by
  rw [force] at h
  obtain ⟨a', ha, h⟩ := bind_eq_ok.mp h
  obtain ⟨b', hb, h⟩ := bind_eq_ok.mp h
  cases h
  exact ⟨a', b', ha, hb, rfl⟩

theorem force_recur {defs : List (String × Term)} {b t' : Term}
    (h : force natives (n + 1) (.recur defs b) = .ok t') :
    ∃ defs' b', List.Forall₂ (fun p q => p.1 = q.1 ∧ force natives n p.2 = .ok q.2) defs defs' ∧
      force natives n b = .ok b' ∧ t' = .recur defs' b' := by
  rw [force] at h
  obtain ⟨defs', hdefs, h⟩ := bind_eq_ok.mp h
  obtain ⟨b', hb, h⟩ := bind_eq_ok.mp h
  cases h
  refine ⟨defs', b', (mapM_eq_ok hdefs).imp fun p q hpq => ?_, hb, rfl⟩
  obtain ⟨u, hu, hq⟩ := bind_eq_ok.mp hpq
  cases hq
  exact ⟨rfl, hu⟩

theorem forceCase {t t' : Term} (h : force natives (n + 1) t = .ok t') : ForceCase natives n t t' := by
  cases t with
  | app l r =>
      obtain ⟨operator, hoperator, ⟨-, hfeed⟩ | ⟨-, rfl⟩⟩ := force_app h
      · exact .applied hoperator hfeed
      · exact .blocked r hoperator
  | instr head args =>
      rw [force] at h
      split at h
      · exact .called h
      · cases h; exact .exposed _
  | define form x a b =>
      obtain ⟨a', b', ha, hb, rfl⟩ := force_define h
      exact .define form x ha hb
  | recur defs b =>
      obtain ⟨defs', b', hdefs, hb, rfl⟩ := force_recur h
      exact .recur hdefs hb
  | _ => cases h; exact .exposed _

theorem feedCase {t arg t' : Term} (h : feed natives (n + 1) t arg = .ok t') :
    FeedCase natives n t arg t' := by
  cases t with
  | abs binders body => exact .applied h
  | instr head args => exact .handed h
  | _ => cases h; exact .blocked _ _

theorem instrCase {head : InstructionHead} {args : List Term} {arg t : Term}
    (h : feedInstr natives (n + 1) head args arg = .ok t) : InstrCase natives n head args arg t := by
  rw [feedInstr] at h
  split at h
  · obtain ⟨result, hresult, h⟩ := bind_eq_ok.mp h
    exact .ready hresult h
  · split at h
    · split at h
      · exact .last ‹_› h
      · cases h; exact .held ‹_›
    · cases h

theorem call_eq_ok {head : InstructionHead} {args : List Term} {t : Term}
    (h : call natives (n + 1) head args = .ok t) :
    (natives head args).run (force natives n) = .ok t ∨ ∃ text, t = .const text := by
  rw [call] at h
  exact recover_eq_ok h

/-- An application takes the part of the step before the remaining binders are put back, and settles
below them. -/
theorem apply_eq_contractBody (v : Variable) (rest : List Variable) (body arg : Term) :
    apply natives (n + 1) (v :: rest) body arg = do
      let step ← contractBody v rest.length body arg.assignFree
      return wrap rest (← settle natives n step.1 step.2) := by
  rw [apply]
  simp only [contractBody, bind_assoc, pure_bind]

theorem wrap_injective {binders : List Variable} {t u : Term} (h : wrap binders t = wrap binders u) :
    t = u := by
  cases binders with
  | nil => exact h
  | cons v rest => exact (Term.abs.inj h).2

/-- An application contracts with the prepared argument and then settles below the remaining binders. -/
theorem apply_eq_ok {binders : List Variable} {body arg t : Term} :
    apply natives (n + 1) binders body arg = .ok t ↔
      ∃ v rest result flag settled, binders = v :: rest ∧
        contract binders body arg.assignFree = .ok (wrap rest result, flag) ∧
        settle natives n result flag = .ok settled ∧ t = wrap rest settled := by
  constructor
  · intro h
    cases binders with
    | nil => cases h
    | cons v rest =>
        rw [apply_eq_contractBody] at h
        obtain ⟨⟨result, flag⟩, hstep, h⟩ := bind_eq_ok.mp h
        obtain ⟨settled, hsettled, h⟩ := bind_eq_ok.mp h
        cases h
        refine ⟨v, rest, result, flag, settled, rfl, ?_, hsettled, rfl⟩
        rw [contract_eq_contractBody]
        exact bind_eq_ok.mpr ⟨(result, flag), hstep, rfl⟩
  · rintro ⟨v, rest, result, flag, settled, rfl, hcontract, hsettled, rfl⟩
    rw [contract_eq_contractBody] at hcontract
    obtain ⟨step, hstep, hcontract⟩ := bind_eq_ok.mp hcontract
    obtain ⟨hwrap, rfl⟩ := Prod.mk.inj (Except.ok.inj hcontract)
    obtain rfl := wrap_injective hwrap
    rw [apply_eq_contractBody]
    exact bind_eq_ok.mpr ⟨step, hstep, bind_eq_ok.mpr ⟨settled, hsettled, rfl⟩⟩

theorem settle_eq_ok {t t' : Term} {flag : Bool} (h : settle natives (n + 1) t flag = .ok t') :
    t' = t ∨ ∃ u more, advance natives n t = .ok (u, more) ∧ settle natives n u more = .ok t' := by
  cases flag with
  | false => cases h; exact .inl rfl
  | true =>
      rw [settle] at h
      obtain ⟨⟨u, more⟩, hu, h⟩ := bind_eq_ok.mp h
      exact .inr ⟨u, more, hu, h⟩

theorem advanceCase {t t' : Term} {more : Bool} (h : advance natives (n + 1) t = .ok (t', more)) :
    AdvanceCase natives n t t' more := by
  cases t with
  | app l r =>
      rw [advance] at h
      obtain ⟨⟨operator, flag⟩, hoperator, h⟩ := bind_eq_ok.mp h
      cases flag with
      | true => cases h; exact .inside r hoperator
      | false =>
          cases operator with
          | abs binders body => exact .contracted hoperator h
          | instr head args =>
              obtain ⟨result, hresult, h⟩ := bind_eq_ok.mp h
              cases h
              exact .handed hoperator hresult
          | _ => cases h; exact .blocked r hoperator
  | instr head args =>
      rw [advance] at h
      split at h
      · obtain ⟨result, hresult, h⟩ := bind_eq_ok.mp h
        cases h
        exact .called hresult
      · cases h; exact .exposed _
  | _ => cases h; exact .exposed _

/-! ## Disciplines that evaluation keeps -/

/-- What evaluation needs in order to keep the discipline `step` below binders and, at the places where
an evaluation may start, the discipline that goes with the place. -/
structure Evaluable (natives : InstructionSet) (step : Discipline)
    (start : Discipline → List String → Prop) : Prop where
  portable : step.Portable
  sound : ∀ {scope : List String} {t : Term}, t.Respects step scope → t.Respects .sound scope
  /-- An abstraction that is to be applied is fit for steps, and so is a prepared argument. -/
  function : ∀ {d scope binders body}, start d scope → (abs binders body).Respects d scope →
    (abs binders body).Respects step scope
  argument : ∀ {d scope} {arg : Term}, start d scope → arg.Respects d scope →
    arg.assignFree.Respects step scope
  result : ∀ {d scope} {t : Term}, start d scope → t.Respects step scope → t.Respects d scope
  /-- Where an instruction may stand below binders, an evaluation may start. -/
  restart : ∀ {scope head args}, (instr head args).Respects step scope → start step scope
  held : ∀ {d scope head k}, start d scope → d.arguments head k → k < head.arity →
    d.arguments head (k + 1)
  action : ∀ {d scope head args}, start d scope → (instr head args).Respects d scope →
    (natives head args).Keeps (·.Respects d scope)

/-- Without instructions, an evaluation may start where preparing an argument does no harm. -/
theorem evaluable_of_instructionFree (natives : InstructionSet) {step : Discipline}
    {outside : List String → Prop} (portable : step.Portable)
    (sound : ∀ {scope} {t : Term}, t.Respects step scope → t.Respects .sound scope)
    (free : ∀ {head k}, ¬ step.arguments head k)
    (argument : ∀ {scope} {arg : Term}, outside scope → arg.Respects step scope →
      arg.assignFree.Respects step scope) :
    Evaluable natives step (fun d scope => d = step ∧ outside scope) where
  portable := portable
  sound := sound
  function := by rintro d scope binders body ⟨rfl, -⟩ hf; exact hf
  argument := by rintro d scope arg ⟨rfl, hscope⟩ harg; exact argument hscope harg
  result := by rintro d scope t ⟨rfl, -⟩ ht; exact ht
  restart h := absurd (respects_instr.mp h).1 free
  held := by rintro d scope head k ⟨rfl, -⟩ h; exact absurd h free
  action := by rintro d scope head args ⟨rfl, -⟩ h; exact absurd (respects_instr.mp h).1 free

theorem not_respects_instr {d : Discipline} {scope : List String} {head : InstructionHead}
    {args : List Term} :
    ¬ (instr head args).Respects (Discipline.sound.and (Discipline.instructionFree.and d)) scope :=
  fun h => (respects_instr.mp h).1.2.1

/-- The functions of reduction keep the disciplines with the given fuel. -/
structure Preserves (natives : InstructionSet) (step : Discipline)
    (start : Discipline → List String → Prop) (n : Nat) : Prop where
  force : ∀ {d scope} {t t' : Term}, start d scope → t.Respects d scope → force natives n t = .ok t' →
    t'.Respects d scope
  feed : ∀ {d scope} {t arg t' : Term}, start d scope → t.Respects d scope → arg.Respects d scope →
    feed natives n t arg = .ok t' → t'.Respects d scope
  feedInstr : ∀ {d scope head args} {arg t : Term}, start d scope →
    (instr head args).Respects d scope → arg.Respects d scope →
    feedInstr natives n head args arg = .ok t → t.Respects d scope
  call : ∀ {d scope head args} {t : Term}, start d scope → (instr head args).Respects d scope →
    call natives n head args = .ok t → t.Respects d scope
  apply : ∀ {d scope binders body} {arg t : Term}, start d scope →
    (abs binders body).Respects d scope → arg.Respects d scope →
    apply natives n binders body arg = .ok t → t.Respects d scope
  settle : ∀ {scope flag} {t t' : Term}, t.Respects step scope → settle natives n t flag = .ok t' →
    t'.Respects step scope
  advance : ∀ {scope more} {t t' : Term}, t.Respects step scope → advance natives n t = .ok (t', more) →
    t'.Respects step scope

namespace Preserves

variable {step d : Discipline} {start : Discipline → List String → Prop} {scope : List String}
  (ih : Preserves natives step start n)

include ih

theorem force_succ {t t' : Term} (hstart : start d scope) (ht : t.Respects d scope)
    (h : Term.force natives (n + 1) t = .ok t') : t'.Respects d scope := by
  cases forceCase h with
  | exposed => exact ht
  | applied hoperator hresult =>
      obtain ⟨hl, hr⟩ := respects_app.mp ht
      exact ih.feed hstart (ih.force hstart hl hoperator) hr hresult
  | blocked r hoperator =>
      obtain ⟨hl, hr⟩ := respects_app.mp ht
      exact respects_app.mpr ⟨ih.force hstart hl hoperator, hr⟩
  | called hresult => exact ih.call hstart ht hresult
  | define form x ha' hb' =>
      obtain ⟨ha, hb⟩ := respects_define.mp ht
      exact respects_define.mpr ⟨ih.force hstart ha ha', ih.force hstart hb hb'⟩
  | recur hdefs' hb' =>
      obtain ⟨hcount, hdefs, hb⟩ := respects_recur.mp ht
      refine respects_recur.mpr ⟨hdefs'.length_eq ▸ hcount, fun q hq => ?_, ih.force hstart hb hb'⟩
      obtain ⟨p, hp, -, hforced⟩ := exists_of_mem_right hdefs' hq
      exact ih.force hstart (hdefs p hp) hforced

theorem feed_succ {t arg t' : Term} (hstart : start d scope) (ht : t.Respects d scope)
    (harg : arg.Respects d scope) (h : Term.feed natives (n + 1) t arg = .ok t') :
    t'.Respects d scope := by
  cases feedCase h with
  | applied hresult => exact ih.apply hstart ht harg hresult
  | handed hresult => exact ih.feedInstr hstart ht harg hresult
  | blocked => exact respects_app.mpr ⟨ht, harg⟩

theorem settle_succ {t t' : Term} {flag : Bool} (ht : t.Respects step scope)
    (h : Term.settle natives (n + 1) t flag = .ok t') : t'.Respects step scope := by
  rcases settle_eq_ok h with rfl | ⟨u, more, hu, hsettled⟩
  · exact ht
  · exact ih.settle (ih.advance ht hu) hsettled

end Preserves

namespace Evaluable

variable {step d : Discipline} {start : Discipline → List String → Prop} {scope : List String}
  (hev : Evaluable natives step start)

include hev

theorem contracted {binders : List Variable} {body arg result : Term} {flag : Bool}
    (hf : (abs binders body).Respects step scope) (harg : arg.Respects step scope)
    (h : contract binders body arg = .ok (result, flag)) : result.Respects step scope :=
  Respects.contract hev.portable (respects_and.mpr ⟨hev.sound hf, hf⟩) harg h

theorem received {head : InstructionHead} {args : List Term} {arg : Term} (hstart : start d scope)
    (hinstr : (instr head args).Respects d scope) (harg : arg.Respects d scope)
    (hroom : args.length < head.arity) : (instr head (args ++ [arg])).Respects d scope := by
  obtain ⟨hcount, hargs⟩ := respects_instr.mp hinstr
  rw [respects_instr, List.length_append]
  refine ⟨hev.held hstart hcount hroom, fun t ht => ?_⟩
  rcases List.mem_append.mp ht with ht | ht
  · exact hargs t ht
  · rwa [List.mem_singleton.mp ht]

section Step

variable (ih : Preserves natives step start n)

include ih

theorem feedInstr_succ {head : InstructionHead} {args : List Term} {arg t : Term}
    (hstart : start d scope) (hinstr : (instr head args).Respects d scope)
    (harg : arg.Respects d scope) (h : feedInstr natives (n + 1) head args arg = .ok t) :
    t.Respects d scope := by
  cases instrCase h with
  | ready hresult hforced =>
      exact ih.force hstart (respects_app.mpr ⟨ih.call hstart hinstr hresult, harg⟩) hforced
  | last hroom hresult => exact ih.call hstart (hev.received hstart hinstr harg hroom) hresult
  | held hroom => exact hev.received hstart hinstr harg hroom

theorem call_succ {head : InstructionHead} {args : List Term} {t : Term} (hstart : start d scope)
    (hinstr : (instr head args).Respects d scope) (h : call natives (n + 1) head args = .ok t) :
    t.Respects d scope := by
  rcases call_eq_ok h with hrun | ⟨text, rfl⟩
  · exact (hev.action hstart hinstr).run (fun _ _ => ih.force hstart) hrun
  · exact respects_const

theorem apply_succ {binders : List Variable} {body arg t : Term} (hstart : start d scope)
    (hf : (abs binders body).Respects d scope) (harg : arg.Respects d scope)
    (h : apply natives (n + 1) binders body arg = .ok t) : t.Respects d scope := by
  obtain ⟨v, rest, result, flag, settled, rfl, hcontract, hsettled, rfl⟩ := apply_eq_ok.mp h
  -- from the discipline of the place to the one for steps, and back at the end
  have hresult := hev.contracted (hev.function hstart hf) (hev.argument hstart harg) hcontract
  obtain ⟨hrest, hbody⟩ := respects_wrap.mp hresult
  exact hev.result hstart (respects_wrap.mpr ⟨hrest, ih.settle hbody hsettled⟩)

theorem advance_succ {t t' : Term} {more : Bool} (ht : t.Respects step scope)
    (h : advance natives (n + 1) t = .ok (t', more)) : t'.Respects step scope := by
  cases advanceCase h with
  | exposed => exact ht
  | inside r hoperator =>
      obtain ⟨hl, hr⟩ := respects_app.mp ht
      exact respects_app.mpr ⟨ih.advance hl hoperator, hr⟩
  | contracted hoperator hresult =>
      obtain ⟨hl, hr⟩ := respects_app.mp ht
      exact hev.contracted (ih.advance hl hoperator) hr hresult
  | handed hoperator hresult =>
      obtain ⟨hl, hr⟩ := respects_app.mp ht
      -- an instruction below binders: what it does is an evaluation that starts there
      have hinstr := ih.advance hl hoperator
      exact ih.feedInstr (hev.restart hinstr) hinstr hr hresult
  | blocked r hoperator =>
      obtain ⟨hl, hr⟩ := respects_app.mp ht
      exact respects_app.mpr ⟨ih.advance hl hoperator, hr⟩
  | called hresult => exact ih.call (hev.restart ht) ht hresult

end Step

theorem preserves (n : Nat) : Preserves natives step start n := by
  induction n with
  | zero =>
      constructor
      all_goals intros
      all_goals contradiction
  | succ n ih =>
      exact ⟨ih.force_succ, ih.feed_succ, hev.feedInstr_succ ih, hev.call_succ ih,
        hev.apply_succ ih, ih.settle_succ, hev.advance_succ ih⟩

end Evaluable

end Term

end IndexedLambda
