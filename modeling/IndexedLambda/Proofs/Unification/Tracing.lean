import IndexedLambda.Proofs.Unification.Inessential
import IndexedLambda.Proofs.Unification.Symmetry
/-!
# The record of unification steps

A context can keep a record of what unification does. The record is inert: a run with a record and a
run without one differ in nothing but the record. And it is faithful: the steps that a run appends
account for all that it did (`Recorded`). They carry on the numbering, there is one step for each
variable that was bound, and a run that fails appends one failed step, as its last.

Each call of unification appends one step of its own, and then what the calls for the parts append.
So the account of a run is put together from those of its calls, in the order in which they are made;
nothing is appended after a failed step, since the first failure ends the run.
-/

namespace IndexedLambda

/-- The step says why unification failed. -/
def UnifyStep.Failed (s : UnifyStep) : Prop := s.action = .error ∨ s.action = .occursCheck

instance : DecidablePred UnifyStep.Failed := fun _ => inferInstanceAs (Decidable (_ ∨ _))

namespace TypeContext

/-! ## The record is inert -/

/-- The context without a record of its own, but with the given one. -/
def silenced (trace : Array UnifyStep) (c : TypeContext) : TypeContext :=
  { c with tracing := false, trace }

/-- Whether a record is kept does not matter where everything can be written that it takes. -/
theorem silenced_inessential (trace : Array UnifyStep) {P : Monotype → Prop} {excused : Fault → Prop}
    (hexcused : ∀ {m f}, P m → m.render = .error f → excused f) :
    Inessential P excused (silenced trace) where
  known _ := rfl
  noted c step := by
    show silenced trace c = silenced trace (c.noted step)
    unfold noted
    split <;> rfl
  withType _ _ _ := rfl
  withKind _ _ _ := rfl
  recorded action a b ha hb detail c _ := by
    have hsilent : record action a.render b.render detail (silenced trace c) =
        .ok () (silenced trace c) := rfl
    rcases record_types action a b detail c with
      ⟨step, -, -, -, hrun⟩ | ⟨m, f, -, hm, hf, hrun⟩
    · refine .inl ?_
      rw [hsilent, hrun]
      show _ = EStateM.Result.ok () (silenced trace (c.noted step))
      unfold TypeContext.noted
      split <;> rfl
    · refine .inr ⟨f, c, hrun, ?_⟩
      rcases hm with rfl | rfl
      · exact hexcused ha hf
      · exact hexcused hb hf

/-! ## What is recorded -/

/-- The steps lead from the first context to the second: they are what has been appended to the
record, and they account for everything that has been bound. -/
structure Recorded (c : TypeContext) (steps : List UnifyStep) (d : TypeContext) : Prop where
  trace : d.trace.toList = c.trace.toList ++ steps
  numbered : steps.map (·.step) = List.range' (c.trace.size + 1) steps.length
  types : d.classes.size = c.classes.size + steps.countP (·.action = .bind)
  kinds : d.kinds.size = c.kinds.size + steps.countP (·.action = .bindIndex)
  grows : Grows .all c.known d.known
  tracing : d.tracing = c.tracing

namespace Recorded

variable {c d e : TypeContext} {steps steps' : List UnifyStep} {step : Nat → UnifyStep}

theorem refl : Recorded c [] c := ⟨by simp, rfl, rfl, rfl, .refl, rfl⟩

theorem size (h : Recorded c steps d) : d.trace.size = c.trace.size + steps.length := by
  simpa using congrArg List.length h.trace

theorem trans (h : Recorded c steps d) (h' : Recorded d steps' e) :
    Recorded c (steps ++ steps') e where
  trace := by rw [h'.trace, h.trace, List.append_assoc]
  numbered := by
    rw [List.map_append, h.numbered, h'.numbered, h.size, List.length_append, Nat.add_right_comm,
      List.range'_append_1]
  types := by rw [h'.types, h.types, List.countP_append, Nat.add_assoc]
  kinds := by rw [h'.kinds, h.kinds, List.countP_append, Nat.add_assoc]
  grows := h.grows.trans h'.grows
  tracing := h'.tracing.trans h.tracing

/-- One step has been recorded, and everything that has been bound is what it says. -/
theorem single {action : UnifyAction} (hlogs : Logs action step) (hc : c.tracing = true)
    (htrace : d.trace = (c.noted step).trace) (htracing : d.tracing = c.tracing)
    (hgrows : Grows .all c.known d.known)
    (htypes : d.classes.size = c.classes.size + if action = .bind then 1 else 0)
    (hkinds : d.kinds.size = c.kinds.size + if action = .bindIndex then 1 else 0) :
    Recorded c [step (c.trace.size + 1)] d := by
  obtain ⟨hnumber, haction⟩ := hlogs (c.trace.size + 1)
  refine ⟨?_, by simp [hnumber], ?_, ?_, hgrows, htracing⟩
  · rw [htrace, noted, if_pos hc]
    simp
  · simp [htypes, haction, List.countP_singleton]
  · simp [hkinds, haction, List.countP_singleton]

theorem noted {action : UnifyAction} (hlogs : Logs action step) (hc : c.tracing = true)
    (htype : action ≠ .bind) (hkind : action ≠ .bindIndex) :
    Recorded c [step (c.trace.size + 1)] (c.noted step) := by
  refine single hlogs hc rfl (tracing_noted c step) (by rw [known_noted]) ?_ ?_
  · rw [if_neg htype, classes_noted, Nat.add_zero]
  · rw [if_neg hkind, kinds_noted, Nat.add_zero]

/-- The variable had not been bound before, and so the classes of types have grown by one. -/
theorem bound_type {a b m : Monotype} {v : TypeVariable} (hlogs : Logs .bind step)
    (hc : c.tracing = true) (hacyclic : c.known.Acyclic)
    (hmeets : Meets (.var v) m (c.find a) (c.find b))
    (hinside : (c.resolve m).hasInside v = false) :
    Recorded c [step (c.trace.size + 1)] ((c.noted step).withType v m) := by
  have hfree : c.classes.get? v.key = none :=
    (hmeets.both (P := fun m => c.known.types.next? m = none) (hacyclic.next?_find_type a)
      (hacyclic.next?_find_type b)).1
  refine single hlogs hc rfl (tracing_noted c step) ?_ ?_ ?_
  · rw [known_withType, known_noted]
    exact .single (hmeets.binds_type hacyclic (Region.all_holds _) (Region.all_holds _) hinside)
  · show ((c.noted step).classes.bind v.key m).size = _
    rw [classes_noted, ClassMap.size_bind hfree, if_pos rfl]
  · show (c.noted step).kinds.size = _
    rw [kinds_noted, if_neg (by simp), Nat.add_zero]

theorem bound_kind {s t u : Term} {v : Variable} (hlogs : Logs .bindIndex step)
    (hc : c.tracing = true) (hacyclic : c.known.Acyclic)
    (hmeets : Meets (.var v) u (c.findKind s) (c.findKind t)) :
    Recorded c [step (c.trace.size + 1)] ((c.noted step).withKind v u) := by
  have hfree : c.kinds.get? v.key = none :=
    (hmeets.both (P := fun t => c.known.kinds.next? t = none) (hacyclic.next?_find_kind s)
      (hacyclic.next?_find_kind t)).1
  refine single hlogs hc rfl (tracing_noted c step) ?_ ?_ ?_
  · rw [known_withKind, known_noted]
    exact .single (hmeets.binds_kind hacyclic trivial trivial)
  · show (c.noted step).classes.size = _
    rw [classes_noted, if_neg (by simp), Nat.add_zero]
  · show ((c.noted step).kinds.bind v.key u).size = _
    rw [kinds_noted, ClassMap.size_bind hfree, if_pos rfl]

end Recorded

/-- How a run ends and what it has recorded by then. A run that ends well has recorded no failure;
one that fails has recorded the failure at its end. -/
inductive Accounted (c : TypeContext) : EStateM.Result Fault TypeContext Status → Prop
  | done {steps : List UnifyStep} {d : TypeContext} : Recorded c steps d →
      (∀ s ∈ steps, ¬ s.Failed) → Accounted c (.ok .ok d)
  | failed {status : Status} {steps : List UnifyStep} {last : UnifyStep} {d : TypeContext} :
      status ≠ .ok → Recorded c (steps ++ [last]) d → (∀ s ∈ steps, ¬ s.Failed) → last.Failed →
      Accounted c (.ok status d)
  | stopped {f : Fault} {steps : List UnifyStep} {d : TypeContext} : Recorded c steps d →
      (∀ s ∈ steps, ¬ s.Failed) → Accounted c (.error f d)

namespace Accounted

variable {c d : TypeContext} {steps : List UnifyStep} {step : Nat → UnifyStep}
  {r : EStateM.Result Fault TypeContext Status}

/-- What was recorded before the run comes first. -/
theorem after (h : Recorded c steps d) (hquiet : ∀ s ∈ steps, ¬ s.Failed) (hr : Accounted d r) :
    Accounted c r := by
  have hboth : ∀ {steps' : List UnifyStep}, (∀ s ∈ steps', ¬ s.Failed) →
      ∀ s ∈ steps ++ steps', ¬ s.Failed := by
    intro steps' hquiet' s hs
    exact (List.mem_append.mp hs).elim (hquiet s) (hquiet' s)
  cases hr with
  | done h' hquiet' => exact .done (h.trans h') (hboth hquiet')
  | stopped h' hquiet' => exact .stopped (h.trans h') (hboth hquiet')
  | failed hstatus h' hquiet' hlast =>
      refine .failed hstatus ?_ (hboth hquiet') hlast
      rw [List.append_assoc]
      exact h.trans h'

theorem quiet_single {action : UnifyAction} (hlogs : Logs action step) (herror : action ≠ .error)
    (hcheck : action ≠ .occursCheck) (number : Nat) : ∀ s ∈ [step number], ¬ s.Failed := by
  intro s hs
  rw [List.mem_singleton.mp hs, UnifyStep.Failed, (hlogs number).2]
  exact not_or.mpr ⟨herror, hcheck⟩

/-- A step that says why the run fails here. -/
theorem of_failure {action : UnifyAction} {status : Status} (hstatus : status ≠ .ok)
    (hlogs : Logs action step) (hc : c.tracing = true)
    (hfailed : action = .error ∨ action = .occursCheck) :
    Accounted c (.ok status (c.noted step)) := by
  have hrecorded : Recorded c ([] ++ [step (c.trace.size + 1)]) (c.noted step) := by
    refine .noted hlogs hc ?_ ?_
    · rintro rfl
      simp at hfailed
    · rintro rfl
      simp at hfailed
  refine .failed hstatus hrecorded (by simp) ?_
  rw [UnifyStep.Failed, (hlogs _).2]
  exact hfailed

theorem of_identity (hlogs : Logs .identity step) (hc : c.tracing = true) :
    Accounted c (.ok .ok (c.noted step)) :=
  .done (.noted hlogs hc (by simp) (by simp)) (quiet_single hlogs (by simp) (by simp) _)

end Accounted

/-- The record of every run of the computation accounts for what it does. -/
def Accounts (x : ContextM Status) : Prop :=
  ∀ c : TypeContext, c.known.Acyclic → c.tracing = true → Accounted c (x c)

namespace Accounts

theorem andThen {x y : ContextM Status} (hx : Accounts x) (hy : Accounts y) :
    Accounts (andThen x y) := by
  intro c hc htracing
  have hfirst := hx c hc htracing
  rw [andThen_eq]
  generalize x c = r at hfirst ⊢
  cases hfirst with
  | done h hquiet =>
      exact .after h hquiet (hy _ (h.grows.acyclic hc) (h.tracing.trans htracing))
  | stopped h hquiet => exact .stopped h hquiet
  | @failed status steps last d hstatus h hquiet hlast =>
      cases status with
      | ok => exact absurd rfl hstatus
      | _ => exact .failed hstatus h hquiet hlast

theorem pairwise {α : Type} {relate : α → α → ContextM Status} (h : ∀ a b, Accounts (relate a b))
    (as bs : List α) : Accounts (pairwise relate as bs) := by
  have hnone : Accounts (return .ok) := fun c _ _ => .done .refl (by simp)
  induction as generalizing bs with
  | nil => exact hnone
  | cons a as ih =>
      cases bs with
      | nil => exact hnone
      | cons b bs =>
          rw [pairwise_cons]
          exact (h a b).andThen (ih bs)

end Accounts

variable {natives : InstructionSet}

theorem unifyKind_accounts (n : Nat) (s t : Term) : Accounts (unifyKind natives n s t) := by
  intro c hc htracing
  have hcase := kindCase natives n s t c
  generalize unifyKind natives n s t c = r at hcase ⊢
  cases hcase with
  | same step _ hlogs => exact .of_identity hlogs htracing
  | equal step _ _ hlogs => exact .of_identity hlogs htracing
  | differ step _ _ hlogs => exact .of_failure (by simp) hlogs htracing (Or.inl rfl)
  | fault f _ _ => exact .stopped .refl (by simp)
  | bind v u step hmeets hlogs =>
      exact .done (.bound_kind hlogs htracing hc hmeets)
        (Accounted.quiet_single hlogs (by simp) (by simp) _)

theorem unifyParts_accounts {n : Nat} (hunify : ∀ a b, Accounts (unify natives n a b))
    (a b : Monotype) : Accounts (unifyParts (unify natives n) (unifyKind natives n) a b) := by
  refine (Accounts.pairwise hunify _ _).andThen (Accounts.pairwise (fun i j => ?_) _ _)
  exact (unifyKind_accounts n i.1 j.1).andThen (hunify i.2 j.2)

theorem unify_accounts (n : Nat) (a b : Monotype) : Accounts (unify natives n a b) := by
  induction n generalizing a b with
  | zero => exact fun c _ _ => .stopped .refl (by simp)
  | succ n ih =>
      intro c hc htracing
      have hcase := unifyCase natives n a b c
      generalize unify natives (n + 1) a b c = r at hcase ⊢
      cases hcase with
      | same step _ hlogs => exact .of_identity hlogs htracing
      | inside v m step _ _ hlogs => exact .of_failure (by simp) hlogs htracing (Or.inr rfl)
      | illegible m f => exact .stopped .refl (by simp)
      | clash status step _ _ hfailed _ hlogs =>
          exact .of_failure hfailed hlogs htracing (Or.inl rfl)
      | bind v m step hmeets hinside hlogs =>
          exact .done (.bound_type hlogs htracing hc hmeets hinside)
            (Accounted.quiet_single hlogs (by simp) (by simp) _)
      | parts step _ _ _ _ _ hlogs =>
          have hstep : Recorded c [step (c.trace.size + 1)] (c.noted step) :=
            .noted hlogs htracing (by simp) (by simp)
          have hquiet := Accounted.quiet_single hlogs (by simp) (by simp) (c.trace.size + 1)
          refine .after hstep hquiet (unifyParts_accounts ih _ _ _ ?_ ?_)
          · rwa [known_noted]
          · rw [hstep.tracing, htracing]

/-! ## Without a record -/

/-- If no record is kept, nothing is added to it. -/
theorem untraced_noted {trace : Array UnifyStep} (c : TypeContext) (step : Nat → UnifyStep)
    (h : c.tracing = false ∧ c.trace = trace) :
    (c.noted step).tracing = false ∧ (c.noted step).trace = trace := by
  rwa [noted, if_neg (by simp [h.1])]

/-! ## The numbers of the steps -/

/-- The steps are numbered from one on. -/
def Numbered (trace : Array UnifyStep) : Prop :=
  trace.toList.map (·.step) = List.range' 1 trace.size

theorem Recorded.numbered_trace {c d : TypeContext} {steps : List UnifyStep}
    (h : Recorded c steps d) (hc : Numbered c.trace) : Numbered d.trace := by
  show d.trace.toList.map (·.step) = List.range' 1 d.trace.size
  rw [h.trace, List.map_append, hc, h.numbered, h.size, Nat.add_comm c.trace.size 1,
    List.range'_append_1]

theorem Accounts.numbered {x : ContextM Status} (hx : Accounts x)
    (hsilent : ∀ trace, Keeps (fun c => c.tracing = false ∧ c.trace = trace) x) {c : TypeContext}
    (hc : c.known.Acyclic) (hnumbered : Numbered c.trace) : Numbered (endOf (x c)).trace := by
  cases htracing : c.tracing with
  | false => rwa [(hsilent c.trace c ⟨htracing, rfl⟩).2]
  | true =>
      have hrun := hx c hc htracing
      generalize x c = r at hrun ⊢
      cases hrun with
      | done h _ => exact h.numbered_trace hnumbered
      | failed _ h _ _ => exact h.numbered_trace hnumbered
      | stopped h _ => exact h.numbered_trace hnumbered

theorem numbered_lasting : Lasting fun c => c.known.Acyclic ∧ Numbered c.trace where
  unify natives n a b := by
    rintro c ⟨hc, hnumbered⟩
    have hgrows : Grows .all c.known (endOf (unify natives n a b c)).known :=
      unify_grows n hc (Region.all_holds _) (Region.all_holds _)
    exact ⟨hgrows.acyclic hc, (unify_accounts n a b).numbered
      (fun _ => unify_keeps untraced_noted (fun _ _ _ h => h) (fun _ _ _ h => h) natives n a b) hc
      hnumbered⟩
  unifyKind natives n s t := by
    rintro c ⟨hc, hnumbered⟩
    have hgrows : Grows .all c.known (endOf (unifyKind natives n s t c)).known :=
      unifyKind_grows n hc trivial trivial
    exact ⟨hgrows.acyclic hc, (unifyKind_accounts n s t).numbered
      (fun _ => unifyKind_keeps untraced_noted (fun _ _ _ h => h) natives n s t) hc hnumbered⟩
  cleared _ h := ⟨h.1, rfl⟩
  of_same h hknown htrace := by rwa [hknown, htrace]

theorem Reachable.numbered {allowed : Operation → Prop} {c : TypeContext} (h : Reachable allowed c) :
    Numbered c.trace := by
  obtain ⟨offset, number, hsteps⟩ := h
  suffices c.known.Acyclic ∧ Numbered c.trace from this.2
  induction hsteps with
  | refl => exact ⟨acyclic_startingAt offset number, rfl⟩
  | tail _ hstep ih =>
      obtain ⟨op, -, rfl⟩ := hstep
      exact op.run_keeps numbered_lasting ih

/-- **The record of unification is inert and faithful.** Without it the same run gives the same status,
or the same fault, and a context that differs in the record alone; unless the record takes a type that
cannot be written, for then the recorded run ends in the fault of a name that cannot be cut. If it gives
a status, it appends steps whose numbers follow those that are there; there is one step for each type
variable and one for each index variable that has been bound; and a step says that unification failed
exactly if it did, only one step does so, and that is the last one. -/
theorem Reachable.unify_recorded {allowed : Operation → Prop} {c : TypeContext}
    (h : Reachable allowed c) (natives : InstructionSet) (n : Nat) (a b : Monotype) :
    (unify natives n a b { c with tracing := false } =
        changed (silenced c.trace) (unify natives n a b { c with tracing := true }) ∨
      ∃ f d, unify natives n a b { c with tracing := true } = .error f d ∧ f.IsCut ∧
        ¬c.WellSplit a b) ∧
      ∀ status d, unify natives n a b { c with tracing := true } = .ok status d →
        ∃ steps : List UnifyStep, d.trace.toList = c.trace.toList ++ steps ∧
          c.trace.toList.map (·.step) = List.range' 1 c.trace.size ∧
          steps.map (·.step) = List.range' (c.trace.size + 1) steps.length ∧
          d.classes.size = c.classes.size + steps.countP (·.action = .bind) ∧
          d.kinds.size = c.kinds.size + steps.countP (·.action = .bindIndex) ∧
          ((∃ s ∈ steps, s.Failed) ↔ status ≠ .ok) ∧
          (status ≠ .ok → ∃ earlier last, steps = earlier ++ [last] ∧ last.Failed ∧
            ∀ s ∈ earlier, ¬ s.Failed) := by
  constructor
  · exact CommutesWith.unify (silenced_inessential c.trace Monotype.cut_of_error)
      (Monotype.pervasive_isWellSplit.under (c.WellSplit a b)) natives n (·.left) (·.right)
      { c with tracing := true } (WellSplit.throughout c a b)
  intro status d hrun
  have haccount : Accounted { c with tracing := true } (.ok status d) := by
    rw [← hrun]
    exact unify_accounts n a b _ h.acyclic rfl
  cases haccount with
  | @done steps _ hrec hquiet =>
      refine ⟨steps, hrec.trace, h.numbered, hrec.numbered, hrec.types, hrec.kinds, ?_, ?_⟩
      · simpa using hquiet
      · exact fun hfailed => absurd rfl hfailed
  | @failed _ steps last _ hfailed hrec hquiet hlast =>
      refine ⟨steps ++ [last], hrec.trace, h.numbered, hrec.numbered, hrec.types, hrec.kinds, ?_, ?_⟩
      · exact ⟨fun _ => hfailed, fun _ => ⟨last, by simp, hlast⟩⟩
      · exact fun _ => ⟨steps, last, rfl, hlast, hquiet⟩

/-- A context in which a unification has failed with two steps on record. Unifying `Vec b i 0` with
`Vec [c] j 1` there binds `b` and `i` and fails at the last index terms, and so five steps follow. -/
theorem unify_recorded_after_failure :
    let natives : InstructionSet := fun _ _ => .fail none
    let nat : Monotype := .const (.plain "Nat")
    let start := Operation.run (startingAt 0 0) .enableTracing
    let c := Operation.run start (.unify ⟨natives, 20⟩ (.arrow nat nat) (.arrow (.list nat) nat))
    let left : Monotype :=
      .inst (.plain "Vec") [.named "b"] [(.var ⟨"i", 0⟩, nat), (.const "0", nat)]
    let right : Monotype :=
      .inst (.plain "Vec") [.list (.named "c")] [(.var ⟨"j", 0⟩, nat), (.const "1", nat)]
    let d := endOf (unify natives 20 left right { c with tracing := true })
    Reachable (fun _ => True) c ∧
      unify natives 20 left right { c with tracing := true } = .ok .kindMismatch d ∧
      d.trace.toList.map (fun s => (s.step, s.action)) = [(1, .decompose), (2, .error),
        (3, .decompose), (4, .bind), (5, .bindIndex), (6, .identity), (7, .error)] ∧
      unify natives 20 left right { c with tracing := false } =
        changed (silenced c.trace) (unify natives 20 left right { c with tracing := true }) ∧
      ∃ steps : List UnifyStep, d.trace.toList = c.trace.toList ++ steps ∧
        c.trace.toList.map (·.step) = List.range' 1 c.trace.size ∧
        steps.map (·.step) = List.range' (c.trace.size + 1) steps.length ∧
        d.classes.size = c.classes.size + steps.countP (·.action = .bind) ∧
        d.kinds.size = c.kinds.size + steps.countP (·.action = .bindIndex) ∧
        ((∃ s ∈ steps, s.Failed) ↔ Status.kindMismatch ≠ .ok) ∧
        ∃ earlier last, steps = earlier ++ [last] ∧ last.Failed ∧ ∀ s ∈ earlier, ¬ s.Failed := by
  intro natives nat start c left right d
  have hc : Reachable (fun _ => True) c :=
    ⟨0, 0, .tail (.single ⟨_, trivial, rfl⟩) ⟨_, trivial, rfl⟩⟩
  have hd : unify natives 20 left right { c with tracing := true } = .ok .kindMismatch d :=
    eq_ok_of_run' (by decide +kernel)
  obtain ⟨hinert, hfaithful⟩ := Reachable.unify_recorded hc natives 20 left right
  obtain ⟨steps, htrace, hold, hnew, htypes, hkinds, hfailed, hlast⟩ := hfaithful _ d hd
  have hlegible : ¬∃ f d, unify natives 20 left right { c with tracing := true } = .error f d ∧
      f.IsCut ∧ ¬c.WellSplit left right := by
    rintro ⟨f, e, hf, -⟩
    cases hd.symm.trans hf
  exact ⟨hc, hd, by decide +kernel, hinert.resolve_right hlegible, steps, htrace, hold, hnew, htypes,
    hkinds, hfailed, hlast (by decide)⟩

/-- Two applications of `[]`, whose name is to be cut at byte 99, are told apart if no record is kept. If
one is, they cannot be written for it, and the run ends in a fault. -/
theorem unify_stopped_by_record :
    let natives : InstructionSet := fun _ _ => .fail none
    let boxed (name : String) : Monotype := .app ⟨"[]", .enclosing 99⟩ [.const (.plain name)]
    let c := startingAt 0 0
    let traced := { c with tracing := true }
    unify natives 5 (boxed "Int") (boxed "Bool") c = .ok .constantMismatch c ∧
      unify natives 5 (boxed "Int") (boxed "Bool") traced = .error (.noBoundary "[]" 99) traced :=
  ⟨rfl, rfl⟩

end TypeContext

end IndexedLambda
