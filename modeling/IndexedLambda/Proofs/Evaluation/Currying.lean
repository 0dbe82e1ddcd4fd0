import Mathlib.Data.List.Induction
import IndexedLambda.Proofs.Evaluation.Fuel
/-!
# Currying of instructions

An instruction can be handed its arguments in three ways. They can be there from the beginning, an
application can be forced, which feeds them one after the other, or an application can be stepped until
no step is flagged. Each way asks on its own whether the instruction is ready and turns a fault of the
action into a constant.

`Term.respond` is what an instruction does with the arguments it holds: it waits, or it runs on them.
All three ways are `respond` on all the arguments, up to the bound on the evaluation
(`force_received`, `force_fed`, `settle_fed`). On the way there the instruction holds too few arguments,
so no action runs, and no argument is looked at.
-/

namespace IndexedLambda

/-! ## Answers of bounded computations -/

/-- The computation ends with the result. One that is stopped under every bound has no answer. -/
def Answers {α : Type} (f : Nat → Except Fault α) (result : Except Fault α) : Prop :=
  result ≠ .error .outOfFuel ∧ ∃ n, f n = result

/-- Both computations end with the same result, or neither ends. -/
def SameAnswers {α : Type} (f g : Nat → Except Fault α) : Prop :=
  ∀ result, Answers f result ↔ Answers g result

namespace SameAnswers

variable {α : Type} {f g h : Nat → Except Fault α}

/-- An answer is the answer under every larger bound. -/
theorem eq_of_le (hf : ∀ n, Approximates (f n) (f (n + 1))) {result : Except Fault α}
    (hresult : result ≠ .error .outOfFuel) {n m : Nat} (hnm : n ≤ m) (hn : f n = result) :
    f m = result := by
  rcases Approximates.of_le hf hnm with hstopped | hsame
  · exact absurd (hn.symm.trans hstopped) hresult
  · exact hsame.symm.trans hn

theorem symm (hfg : SameAnswers f g) : SameAnswers g f := fun result => (hfg result).symm

theorem trans (hfg : SameAnswers f g) (hgh : SameAnswers g h) : SameAnswers f h :=
  fun result => (hfg result).trans (hgh result)

/-- Computations that agree, with bounds that differ by a constant, once the bounds are large. -/
theorem of_shift (bound shift : Nat) (hf : ∀ n, Approximates (f n) (f (n + 1)))
    (hg : ∀ n, Approximates (g n) (g (n + 1)))
    (h : ∀ n, bound ≤ n → f (n + shift) = g n) : SameAnswers f g := by
  intro result
  refine and_congr_right fun hresult => ⟨?_, ?_⟩
  · rintro ⟨n, hn⟩
    have hlarge : f (n + bound + shift) = result := eq_of_le hf hresult (by omega) hn
    exact ⟨n + bound, (h (n + bound) (by omega)).symm.trans hlarge⟩
  · rintro ⟨n, hn⟩
    have hlarge : g (n + bound) = result := eq_of_le hg hresult (by omega) hn
    exact ⟨n + bound + shift, (h (n + bound) (by omega)).trans hlarge⟩

end SameAnswers

/-- What is left of a fault is the constant with its text, unless the run was only stopped. -/
theorem recover_error {fault : Fault} (h : fault ≠ .outOfFuel) :
    recover (.error fault) = .ok (.const fault.message) := by
  cases fault with
  | outOfFuel => exact absurd rfl h
  | _ => rfl

theorem eq_outOfFuel_of_recover {x : Except Fault Term} {fault : Fault}
    (h : recover x = .error fault) : fault = .outOfFuel := by
  cases x with
  | ok t => cases h
  | error f =>
      by_cases hf : f = .outOfFuel
      · subst hf
        cases h
        rfl
      · rw [recover_error hf] at h
        cases h

namespace Term

variable {natives : InstructionSet} {head : InstructionHead} {received further : List Term} {n : Nat}

/-! ## One argument more -/

theorem appMany_append (f : Term) (args : List Term) (arg : Term) :
    appMany f (args ++ [arg]) = .app (appMany f args) arg := by
  unfold appMany
  rw [List.foldl_append, List.foldl_cons, List.foldl_nil]

/-- What an instruction does with the arguments it holds. -/
def respond (natives : InstructionSet) (n : Nat) (head : InstructionHead) (args : List Term) :
    Except Fault Term :=
  if head.isReady args then call natives n head args else .ok (.instr head args)

theorem respond_ready {args : List Term} (h : head.isReady args = true) :
    respond natives n head args = call natives n head args := if_pos h

theorem respond_waiting {args : List Term} (h : head.isReady args = false) :
    respond natives n head args = .ok (.instr head args) :=
  if_neg (by rw [h]; exact Bool.false_ne_true)

theorem respond_step (n : Nat) (head : InstructionHead) (args : List Term) :
    Approximates (respond natives n head args) (respond natives (n + 1) head args) := by
  unfold respond
  split
  · exact (fuelStep n).call head args
  · exact .refl _

/-- No fault of an action gets out of the instruction. -/
theorem eq_outOfFuel_of_respond {args : List Term} {fault : Fault}
    (h : respond natives n head args = .error fault) : fault = .outOfFuel := by
  unfold respond at h
  split at h
  · cases n with
    | zero => cases h; rfl
    | succ n => exact eq_outOfFuel_of_recover h
  · cases h

theorem isReady_of_lt {args : List Term} (h : args.length < head.arity) :
    head.isReady args = false := by
  have hne : args.length ≠ head.arity := Nat.ne_of_lt h
  simp [InstructionHead.isReady, hne]

theorem force_instr (n : Nat) (head : InstructionHead) (args : List Term) :
    force natives (n + 1) (.instr head args) = respond natives n head args := by
  rw [force, respond]

theorem advance_instr (n : Nat) (head : InstructionHead) (args : List Term) :
    advance natives (n + 1) (.instr head args) =
      (do return (← respond natives n head args, false)) := by
  rw [advance, respond]
  split <;> rfl

/-- An instruction that lacks an argument takes it as it is. -/
theorem feedInstr_of_lt {args : List Term} (h : args.length < head.arity) (n : Nat) (arg : Term) :
    feedInstr natives (n + 1) head args arg = respond natives n head (args ++ [arg]) := by
  rw [feedInstr, isReady_of_lt h, if_neg Bool.false_ne_true, if_pos h, respond]

/-- Where a step is the last one, so is the first of several. -/
theorem settle_of_advance {t : Term} {x : Except Fault Term}
    (h : advance natives (n + 1) t = (do return (← x, false))) :
    settle natives (n + 2) t true = x := by
  rw [settle, h]
  cases x <;> rfl

/-- Forcing an application whose operator is an instruction that lacks an argument. -/
theorem force_app_waiting {l : Term} {args : List Term} (h : args.length < head.arity)
    (hl : force natives (n + 2) l = .ok (.instr head args)) (arg : Term) :
    force natives (n + 3) (.app l arg) = respond natives n head (args ++ [arg]) := by
  rw [force, hl]
  exact feedInstr_of_lt h n arg

/-- A step on such an application makes the same of it and is the last one. -/
theorem advance_app_waiting {l : Term} {args : List Term} (h : args.length < head.arity)
    (hl : advance natives (n + 1) l = .ok (.instr head args, false)) (arg : Term) :
    advance natives (n + 2) (.app l arg) =
      (do return (← respond natives n head (args ++ [arg]), false)) := by
  rw [← feedInstr_of_lt h, advance, hl]
  rfl

/-! ## All arguments -/

theorem length_lt_of_append {last : Term}
    (h : (received ++ (further ++ [last])).length ≤ head.arity) :
    (received ++ further).length < head.arity := by
  rw [← List.append_assoc, List.length_append, List.length_singleton] at h
  exact h

/-- While arguments are missing, forcing hands over those that are there and runs nothing. -/
theorem force_waiting (h : (received ++ further).length < head.arity)
    (hn : further.length + 2 ≤ n) :
    force natives n (appMany (.instr head received) further) =
      .ok (.instr head (received ++ further)) := by
  -- from the last argument backwards: the operator is the application to the ones before it
  induction further using List.reverseRecOn generalizing n with
  | nil =>
      obtain ⟨m, rfl⟩ : ∃ m, n = m + 1 := ⟨n - 1, by omega⟩
      rw [List.append_nil] at h ⊢
      exact (force_instr m head received).trans (respond_waiting (isReady_of_lt h))
  | append_singleton further last ih =>
      rw [List.length_append, List.length_singleton] at hn
      obtain ⟨m, rfl⟩ : ∃ m, n = m + 3 := ⟨n - 3, by omega⟩
      have hbefore := length_lt_of_append (Nat.le_of_lt h)
      rw [appMany_append, force_app_waiting hbefore (ih hbefore (by omega)), List.append_assoc]
      exact respond_waiting (isReady_of_lt h)

/-- Stepping hands them over as well, all in one step. -/
theorem advance_waiting (h : (received ++ further).length < head.arity)
    (hn : further.length + 2 ≤ n) :
    advance natives n (appMany (.instr head received) further) =
      .ok (.instr head (received ++ further), false) := by
  induction further using List.reverseRecOn generalizing n with
  | nil =>
      obtain ⟨m, rfl⟩ : ∃ m, n = m + 1 := ⟨n - 1, by omega⟩
      rw [List.append_nil] at h ⊢
      refine (advance_instr m head received).trans ?_
      rw [respond_waiting (isReady_of_lt h)]
      rfl
  | append_singleton further last ih =>
      rw [List.length_append, List.length_singleton] at hn
      obtain ⟨m, rfl⟩ : ∃ m, n = m + 2 := ⟨n - 2, by omega⟩
      have hbefore := length_lt_of_append (Nat.le_of_lt h)
      rw [appMany_append, advance_app_waiting hbefore (ih hbefore (by omega)), List.append_assoc,
        respond_waiting (isReady_of_lt h)]
      rfl

variable (natives)

/-- Forcing an application feeds all the arguments, and the instruction responds to them. -/
theorem force_fed (h : (received ++ further).length ≤ head.arity) :
    SameAnswers (fun n => force natives n (appMany (.instr head received) further))
      (fun n => respond natives n head (received ++ further)) := by
  have hforce := fun n => (@fuelStep natives n).force (appMany (.instr head received) further)
  have hrespond := fun n => @respond_step natives n head (received ++ further)
  rcases List.eq_nil_or_concat further with rfl | ⟨init, last, rfl⟩
  · refine .of_shift 0 1 hforce hrespond fun n _ => ?_
    rw [List.append_nil]
    exact force_instr n head received
  · rw [List.concat_eq_append] at h hforce hrespond ⊢
    refine .of_shift init.length 3 hforce hrespond fun n hn => ?_
    have hbefore := length_lt_of_append h
    rw [appMany_append, force_app_waiting hbefore (force_waiting hbefore (by omega)),
      List.append_assoc]

/-- So does stepping until no step is flagged. -/
theorem settle_fed (h : (received ++ further).length ≤ head.arity) :
    SameAnswers (fun n => settle natives n (appMany (.instr head received) further) true)
      (fun n => respond natives n head (received ++ further)) := by
  have hsettle := fun n => (@fuelStep natives n).settle (appMany (.instr head received) further) true
  have hrespond := fun n => @respond_step natives n head (received ++ further)
  rcases List.eq_nil_or_concat further with rfl | ⟨init, last, rfl⟩
  · refine .of_shift 0 2 hsettle hrespond fun n _ => settle_of_advance ?_
    rw [List.append_nil]
    exact advance_instr n head received
  · rw [List.concat_eq_append] at h hsettle hrespond ⊢
    refine .of_shift (init.length + 1) 3 hsettle hrespond fun n hn => settle_of_advance ?_
    have hbefore := length_lt_of_append h
    rw [appMany_append, advance_app_waiting hbefore (advance_waiting hbefore (by omega)),
      List.append_assoc]

theorem force_received (head : InstructionHead) (args : List Term) :
    SameAnswers (fun n => force natives n (.instr head args))
      (fun n => respond natives n head args) :=
  .of_shift 0 1 (fun n => (@fuelStep natives n).force _) (fun n => respond_step n head args)
    fun n _ => force_instr n head args

/-- An instruction that is ready does what its action does on the arguments it holds. -/
theorem respond_action {args : List Term} (h : head.isReady args = true) :
    SameAnswers (fun n => respond natives n head args)
      (fun n => recover ((natives head args).run (force natives n))) := by
  refine .of_shift 0 1 (fun n => respond_step n head args) (fun n => ?_) fun n _ => ?_
  · exact .recover (.run (@fuelStep natives n).force _)
  · exact respond_ready h

/-- **Currying.** An instruction that holds some arguments is applied to some more, at most as many as
it lacks. Forcing the application, or stepping on it until no step is flagged, gives exactly what forcing
the instruction gives that holds all of them. While an argument is missing, or if there is no action,
that is the instruction with the arguments as they were handed over, in their order. Otherwise it is
what the action does on them, and a fault of the action becomes the constant with its text on every
way. -/
theorem fed_answers_as_received (natives : InstructionSet) (head : InstructionHead)
    (received further : List Term) (h : (received ++ further).length ≤ head.arity) :
    let fed := appMany (.instr head received) further
    let args := received ++ further
    ofInstruction head received = .ok (.instr head received) ∧
    ofInstruction head args = .ok (.instr head args) ∧
    SameAnswers (fun n => force natives n fed) (fun n => force natives n (.instr head args)) ∧
    SameAnswers (fun n => settle natives n fed true) (fun n => force natives n (.instr head args)) ∧
    (args.length < head.arity ∨ head.native = false →
      Answers (fun n => force natives n fed) (.ok (.instr head args))) ∧
    (args.length = head.arity → head.native = true →
      SameAnswers (fun n => force natives n fed)
        (fun n => recover ((natives head args).run (force natives n))) ∧
      ∀ fault, Answers (fun n => (natives head args).run (force natives n)) (.error fault) →
        Answers (fun n => force natives n fed) (.ok (.const fault.message)) ∧
        Answers (fun n => settle natives n fed true) (.ok (.const fault.message)) ∧
        Answers (fun n => force natives n (.instr head args)) (.ok (.const fault.message))) ∧
    ∀ fault, ¬Answers (fun n => force natives n fed) (.error fault) := by
  intro fed args
  have hforce : SameAnswers (fun n => force natives n fed) (fun n => respond natives n head args) :=
    force_fed natives h
  have hsettle := settle_fed natives h
  have hreceived := force_received natives head args
  have hlength : received.length ≤ head.arity :=
    Nat.le_trans (List.sublist_append_left received further).length_le h
  refine ⟨if_pos hlength, if_pos h, hforce.trans hreceived.symm, hsettle.trans hreceived.symm,
    fun hwaiting => ?_, fun harity hnative => ?_, fun fault hfault => ?_⟩
  · have hready : head.isReady args = false := by
      rcases hwaiting with hlt | hnone
      · exact isReady_of_lt hlt
      · simp [InstructionHead.isReady, hnone]
    exact (hforce _).mpr ⟨by simp, 0, respond_waiting hready⟩
  · have hready : head.isReady args = true := by
      simp [InstructionHead.isReady, harity, hnative]
    have haction := respond_action natives hready
    refine ⟨hforce.trans haction, ?_⟩
    rintro fault ⟨hended, n, hn⟩
    have hconst : Answers (fun n => respond natives n head args) (.ok (.const fault.message)) := by
      refine (haction _).mpr ⟨by simp, n, (congrArg recover hn).trans ?_⟩
      exact recover_error fun e => hended (e ▸ rfl)
    exact ⟨(hforce _).mpr hconst, (hsettle _).mpr hconst, (hreceived _).mpr hconst⟩
  · obtain ⟨hended, n, hn⟩ := (hforce _).mp hfault
    exact hended (congrArg _ (eq_outOfFuel_of_respond hn))

/-- An operand without a head normal form is handed over as it is. The instruction `raw` lists what it
has received; `missing` asks for an argument that it does not have. -/
theorem fed_answers_as_received_of_pair :
    let natives : InstructionSet := fun head args =>
      if head.name = "raw" then .answer (.list args) else .argument args 5 fun t _ => .answer t
    let twice : Term := .abs [⟨"x", 1⟩] (.app (.var ⟨"x", 1⟩) (.var ⟨"x", 1⟩))
    let endless : Term := .app twice twice
    let fed (name : String) : Term := appMany (.instr ⟨name, 2, some name⟩ [endless]) [.const "c"]
    Answers (fun n => force natives n (fed "raw")) (.ok (.list [endless, .const "c"])) ∧
    Answers (fun n => settle natives n (fed "missing") true)
      (.ok (.const "instruction argument 5 requested but only 2 received")) := by
  intro natives twice endless fed
  obtain ⟨-, -, -, -, -, hraw, -⟩ :=
    fed_answers_as_received natives ⟨"raw", 2, some "raw"⟩ [endless] [.const "c"] (by decide)
  obtain ⟨-, -, -, -, -, hmissing, -⟩ :=
    fed_answers_as_received natives ⟨"missing", 2, some "missing"⟩ [endless] [.const "c"] (by decide)
  have hfault := (hmissing rfl rfl).2
    (.raised (some "instruction argument 5 requested but only 2 received"))
    ⟨by simp, 0, by decide +kernel⟩
  exact ⟨((hraw rfl rfl).1 _).mpr ⟨by simp, 0, rfl⟩, hfault.2.1⟩

end Term

end IndexedLambda
