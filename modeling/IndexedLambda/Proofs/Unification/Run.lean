import IndexedLambda.Proofs.Types.Legible
import IndexedLambda.Proofs.Unification.Shape
/-!
# What a run of unification does

The functions of `Unification/Unify` are opened here, once. What a call does is said in equations, by
what is known of the two representatives. `UnifyCase` and `KindCase` list everything that one call can
do, with all the conditions it has checked, and the theorems of the same name say that every call is
one of these cases. Proofs about unification go through the equations or the cases and do not unfold
the functions again.

Everything unification does in sequence has one form: a second step is made if the first one ended
well, and otherwise the first one's status stands. `andThen` is that form.

A call ends in a fault of its own only if it has to write a type that cannot be written. `Writes` lists
what a call has to write: what it binds and what fails the occurs check in any case, and the two
representatives if a record is kept.
-/

namespace IndexedLambda.TypeContext

/-- The context after a step has been recorded, if a record is kept. -/
def noted (c : TypeContext) (step : Nat → UnifyStep) : TypeContext :=
  if c.tracing then { c with trace := c.trace.push (step (c.trace.size + 1)) } else c

@[simp] theorem known_noted (c : TypeContext) (step : Nat → UnifyStep) :
    (c.noted step).known = c.known := by
  unfold noted
  split <;> rfl

section Noted

variable (c : TypeContext) (step : Nat → UnifyStep)

theorem tracing_noted : (c.noted step).tracing = c.tracing := by
  unfold noted
  split <;> rfl

theorem classes_noted : (c.noted step).classes = c.classes :=
  congrArg Classes.types (known_noted c step)

theorem kinds_noted : (c.noted step).kinds = c.kinds :=
  congrArg Classes.kinds (known_noted c step)

end Noted

theorem noted_of_not_tracing {c : TypeContext} (hc : c.tracing = false) (step : Nat → UnifyStep) :
    c.noted step = c := by
  rw [noted, hc]
  rfl

/-- The step is recorded under the number that it is given, as a certain action. -/
def Logs (action : UnifyAction) (step : Nat → UnifyStep) : Prop :=
  ∀ number, (step number).step = number ∧ (step number).action = action

/-- The context after a type variable has been bound. -/
def withType (c : TypeContext) (v : TypeVariable) (m : Monotype) : TypeContext :=
  { c with classes := c.classes.bind v.key m }

/-- The context after an index variable has been bound. -/
def withKind (c : TypeContext) (v : Variable) (t : Term) : TypeContext :=
  { c with kinds := c.kinds.bind v.key t }

@[simp] theorem known_withType (c : TypeContext) (v : TypeVariable) (m : Monotype) :
    (c.withType v m).known = ⟨c.known.types.bind v.key m, c.known.kinds⟩ := rfl

@[simp] theorem known_withKind (c : TypeContext) (v : Variable) (t : Term) :
    (c.withKind v t).known = ⟨c.known.types, c.known.kinds.bind v.key t⟩ := rfl

theorem record_ok (action : UnifyAction) (left right detail : String) (c : TypeContext) :
    record action (.ok left) (.ok right) detail c =
      .ok () (c.noted fun number => ⟨number, action, left, right, detail⟩) := by
  unfold record noted
  rw [Stateful.get_then]
  split <;> rfl

theorem record_then (action : UnifyAction) (left right detail : String) (x : ContextM Status)
    (c : TypeContext) : (do record action (.ok left) (.ok right) detail; x) c =
      x (c.noted fun number => ⟨number, action, left, right, detail⟩) :=
  Stateful.bind_of_ok (record_ok action left right detail c)

/-- The type can be written if a record is kept. -/
def Shows (c : TypeContext) (m : Monotype) : Prop := c.tracing = true → m.Legible

/-- Two types are noted, unless a record is kept and one of them cannot be written. -/
theorem record_types (action : UnifyAction) (a b : Monotype) (detail : String) (c : TypeContext) :
    (∃ step, Logs action step ∧ c.Shows a ∧ c.Shows b ∧
      record action a.render b.render detail c = .ok () (c.noted step)) ∨
    ∃ m f, c.tracing = true ∧ (m = a ∨ m = b) ∧ m.render = .error f ∧
      record action a.render b.render detail c = .error f c := by
  by_cases htracing : c.tracing = true
  · have hrecord : record action a.render b.render detail c = (do
        let left ← ofExcept a.render
        let right ← ofExcept b.render
        set { c with trace := c.trace.push ⟨c.trace.size + 1, action, left, right, detail⟩ } :
          ContextM Unit) c := by
      unfold record
      rw [Stateful.get_then, if_pos htracing]
    rcases a.render_cases with ⟨left, ha⟩ | ⟨f, ha, -⟩
    · rcases b.render_cases with ⟨right, hb⟩ | ⟨f, hb, -⟩
      · refine .inl ⟨fun number => ⟨number, action, left, right, detail⟩, fun _ => ⟨rfl, rfl⟩,
          fun _ => ⟨left, ha⟩, fun _ => ⟨right, hb⟩, ?_⟩
        rw [ha, hb]
        exact record_ok action left right detail c
      · refine .inr ⟨b, f, htracing, .inr rfl, hb, ?_⟩
        rw [hrecord, ha, hb]
        rfl
    · refine .inr ⟨a, f, htracing, .inl rfl, ha, ?_⟩
      rw [hrecord, ha]
      rfl
  · refine .inl ⟨fun number => ⟨number, action, "", "", detail⟩, fun _ => ⟨rfl, rfl⟩,
      fun h => absurd h htracing, fun h => absurd h htracing, ?_⟩
    unfold record
    rw [Stateful.get_then, if_neg htracing, noted, if_neg htracing]
    rfl

theorem record_of_shows (action : UnifyAction) {a b : Monotype} (detail : String) {c : TypeContext}
    (ha : c.Shows a) (hb : c.Shows b) :
    ∃ step, record action a.render b.render detail c = .ok () (c.noted step) := by
  rcases record_types action a b detail c with ⟨step, -, -, -, hrun⟩ | ⟨m, f, htracing, hm, hf, -⟩
  · exact ⟨step, hrun⟩
  · refine absurd ?_ (Monotype.not_legible_of_error hf)
    rcases hm with rfl | rfl
    · exact ha htracing
    · exact hb htracing

theorem bindType_then (v : TypeVariable) (m : Monotype) (x : ContextM Status) (c : TypeContext) :
    (do bindType v m; x) c = x (c.withType v m) := rfl

theorem bindKind_then (v : Variable) (t : Term) (x : ContextM Status) (c : TypeContext) :
    (do bindKind v t; x) c = x (c.withKind v t) := rfl

theorem return_eq (status : Status) (c : TypeContext) :
    (return status : ContextM Status) c = .ok status c := rfl

/-- The second step is made if the first one ends well. -/
def andThen (x y : ContextM Status) : ContextM Status := do
  let status ← x
  if status = .ok then y else return status

theorem andThen_eq (x y : ContextM Status) (c : TypeContext) : andThen x y c =
    match x c with
    | .ok .ok c' => y c'
    | r => r := by
  unfold andThen
  show EStateM.bind x _ c = _
  unfold EStateM.bind
  cases hx : x c with
  | ok status c' => cases status <;> rfl
  | error f c' => rfl

/-- Both steps have ended well. -/
theorem andThen_eq_ok {x y : ContextM Status} {c d : TypeContext} :
    andThen x y c = .ok .ok d ↔ ∃ c', x c = .ok .ok c' ∧ y c' = .ok .ok d := by
  rw [andThen_eq]
  cases hx : x c with
  | ok status c' => cases status <;> simp
  | error f c' => simp

theorem pairwise_cons {α : Type} (relate : α → α → ContextM Status) (a b : α) (as bs : List α) :
    pairwise relate (a :: as) (b :: bs) = andThen (relate a b) (pairwise relate as bs) := rfl

theorem keeps_andThen {P : TypeContext → Prop} {x y : ContextM Status} (hx : Keeps P x)
    (hy : Keeps P y) : Keeps P (andThen x y) := by
  refine .bind hx fun status => ?_
  split
  · exact hy
  · exact .pure status

theorem keeps_pairwise {P : TypeContext → Prop} {α : Type} {relate : α → α → ContextM Status}
    {as bs : List α} (h : ∀ a ∈ as, ∀ b ∈ bs, Keeps P (relate a b)) :
    Keeps P (pairwise relate as bs) := by
  induction as generalizing bs with
  | nil => exact .pure Status.ok
  | cons a as ih =>
      cases bs with
      | nil => exact .pure Status.ok
      | cons b bs =>
          rw [pairwise_cons]
          refine keeps_andThen (h a (by simp) b (by simp)) (ih fun a' ha' b' hb' => ?_)
          exact h a' (List.mem_cons_of_mem a ha') b' (List.mem_cons_of_mem b hb')

/-! ## Two index terms -/

/-- A variable stands on one side of a pair and something else on the other. -/
def Meets {α : Type} (unknown other left right : α) : Prop :=
  other ≠ unknown ∧ (left = unknown ∧ right = other ∨ right = unknown ∧ left = other)

/-- Two different index terms that only a comparison can make out to be equal. -/
structure Apart (s t : Term) : Prop where
  ne : ¬s.StrictEq t
  left : ∀ v, s ≠ .var v
  right : ∀ v, t ≠ .var v

/-- Everything that unifying two index terms can do. -/
inductive KindCase (natives : InstructionSet) (n : Nat) (s t : Term) (c : TypeContext) :
    EStateM.Result Fault TypeContext Status → Prop
  | same (step : Nat → UnifyStep) : (c.findKind s).StrictEq (c.findKind t) → Logs .identity step →
      KindCase natives n s t c (.ok .ok (c.noted step))
  | bind (v : Variable) (u : Term) (step : Nat → UnifyStep) :
      Meets (.var v) u (c.findKind s) (c.findKind t) → Logs .bindIndex step →
      KindCase natives n s t c (.ok .ok ((c.noted step).withKind v u))
  | equal (step : Nat → UnifyStep) : Apart (c.findKind s) (c.findKind t) →
      (c.findKind s).convertible natives n (c.findKind t) = .ok true → Logs .identity step →
      KindCase natives n s t c (.ok .ok (c.noted step))
  | differ (step : Nat → UnifyStep) : Apart (c.findKind s) (c.findKind t) →
      (c.findKind s).convertible natives n (c.findKind t) = .ok false → Logs .error step →
      KindCase natives n s t c (.ok .kindMismatch (c.noted step))
  | fault (f : Fault) : Apart (c.findKind s) (c.findKind t) →
      (c.findKind s).convertible natives n (c.findKind t) = .error f →
      KindCase natives n s t c (.error f c)

theorem kindCase (natives : InstructionSet) (n : Nat) (s t : Term) (c : TypeContext) :
    KindCase natives n s t c (unifyKind natives n s t c) := by
  unfold unifyKind
  rw [Stateful.get_then]
  generalize hs : c.findKind s = s'
  generalize ht : c.findKind t = t'
  simp only
  split
  · rename_i hsame
    rw [record_then, return_eq]
    exact .same _ (by rwa [hs, ht]) fun _ => ⟨rfl, rfl⟩
  · rename_i hdifferent
    split
    · rename_i v
      rw [record_then, bindKind_then, return_eq]
      exact .bind v t' _ ⟨fun e => hdifferent (.of_eq e.symm), Or.inl ⟨hs, ht⟩⟩ fun _ => ⟨rfl, rfl⟩
    · rename_i v _
      rw [record_then, bindKind_then, return_eq]
      exact .bind v s' _ ⟨fun e => hdifferent (.of_eq e), Or.inr ⟨ht, hs⟩⟩ fun _ => ⟨rfl, rfl⟩
    · rename_i hs' ht'
      subst hs ht
      have hapart : Apart (c.findKind s) (c.findKind t) := ⟨hdifferent, hs', ht'⟩
      cases hconv : (c.findKind s).convertible natives n (c.findKind t) with
      | error f => exact .fault f hapart hconv
      | ok answer =>
          cases answer with
          | true =>
              simp only
              rw [record_then, return_eq]
              exact .equal _ hapart hconv fun _ => ⟨rfl, rfl⟩
          | false =>
              simp only
              rw [record_then, return_eq]
              exact .differ _ hapart hconv fun _ => ⟨rfl, rfl⟩

/-- The bound matters for the comparison of the two representatives only. -/
theorem unifyKind_congr {natives : InstructionSet} {n k : Nat} {s t : Term} {c : TypeContext}
    (h : (c.findKind s).convertible natives n (c.findKind t) =
      (c.findKind s).convertible natives k (c.findKind t)) :
    unifyKind natives n s t c = unifyKind natives k s t c := by
  unfold unifyKind
  rw [Stateful.get_then, Stateful.get_then]
  generalize c.findKind s = s' at h ⊢
  generalize c.findKind t = t' at h ⊢
  simp only
  split
  · rfl
  · split
    · rfl
    · rfl
    · rw [h]

/-! ## Two types -/

/-- The heads of two types do not fit together. -/
def Clash (a b : Monotype) : Prop :=
  a.headName ≠ b.headName ∨ a.params.length ≠ b.params.length ∨
    (indexOf a).length ≠ (indexOf b).length

/-- Unifies one index with another: the terms, then the kinds. -/
def unifyIndexWith (unifyType : Monotype → Monotype → ContextM Status)
    (unifyIndex : Term → Term → ContextM Status) (i j : Term × Monotype) : ContextM Status :=
  andThen (unifyIndex i.1 j.1) (unifyType i.2 j.2)

/-- Unifies the parts of two types: parameters, then indices. -/
def unifyParts (unifyType : Monotype → Monotype → ContextM Status)
    (unifyIndex : Term → Term → ContextM Status) (a b : Monotype) : ContextM Status :=
  andThen (pairwise unifyType a.params b.params)
    (pairwise (unifyIndexWith unifyType unifyIndex) (indexOf a) (indexOf b))

/-- How unification ends when the heads of two types do not fit together. -/
def clashStatus (a b : Monotype) : Option Status :=
  if a.headName ≠ b.headName then some .constantMismatch
  else if a.params.length ≠ b.params.length then some .paramLengthMismatch
  else if (indexOf a).length ≠ (indexOf b).length then some .paramLengthMismatch
  else none

theorem clashStatus_comm (a b : Monotype) : clashStatus a b = clashStatus b a := by
  simp only [clashStatus, ne_comm]

theorem clash_of_clashStatus {a b : Monotype} {status : Status} (h : clashStatus a b = some status) :
    Clash a b ∧ status ≠ .ok := by
  unfold clashStatus at h
  split at h
  · rename_i hname
    cases h
    exact ⟨Or.inl hname, by decide⟩
  · split at h
    · rename_i hparams
      cases h
      exact ⟨Or.inr (Or.inl hparams), by decide⟩
    · split at h
      · rename_i hindex
        cases h
        exact ⟨Or.inr (Or.inr hindex), by decide⟩
      · cases h

theorem fit_of_clashStatus {a b : Monotype} (h : clashStatus a b = none) :
    a.headName = b.headName ∧ a.params.length = b.params.length ∧
      (indexOf a).length = (indexOf b).length := by
  unfold clashStatus at h
  split at h
  · cases h
  · rename_i hname
    split at h
    · cases h
    · rename_i hparams
      split at h
      · cases h
      · rename_i hindex
        exact ⟨not_not.mp hname, not_not.mp hparams, not_not.mp hindex⟩

section Decompose

variable {a b : Monotype}

/-- Heads that do not fit together end the run. -/
theorem decompose_of_clash {status : Status} (h : clashStatus a b = some status) :
    ∃ detail, ∀ unifyType unifyIndex, decompose unifyType unifyIndex a b =
      (do record .error a.render b.render detail; return status) := by
  unfold decompose
  unfold clashStatus Monotype.headName Monotype.params at h
  simp only at h ⊢
  split at h
  · rename_i hname
    obtain rfl := Option.some.inj h
    simp only [if_pos hname]
    exact ⟨_, fun _ _ => rfl⟩
  · rename_i hname
    simp only [if_neg hname]
    split at h
    · rename_i hlength
      obtain rfl := Option.some.inj h
      simp only [if_pos hlength]
      exact ⟨_, fun _ _ => rfl⟩
    · rename_i hlength
      simp only [if_neg hlength]
      split at h
      · rename_i hindex
        obtain rfl := Option.some.inj h
        simp only [if_pos hindex]
        exact ⟨_, fun _ _ => rfl⟩
      · cases h

/-- Heads that fit together are noted, and then the parts are unified. -/
theorem decompose_of_fit (h : clashStatus a b = none) :
    ∃ detail, ∀ unifyType unifyIndex, decompose unifyType unifyIndex a b =
      (do record .decompose a.render b.render detail; unifyParts unifyType unifyIndex a b) := by
  obtain ⟨hname, hparams, hindex⟩ := fit_of_clashStatus h
  unfold decompose
  unfold Monotype.headName at hname
  unfold Monotype.params at hparams
  simp only [if_neg (not_not.mpr hname), if_neg (not_not.mpr hparams), if_neg (not_not.mpr hindex)]
  exact ⟨_, fun _ _ => rfl⟩

end Decompose

/-! ## What a call does

It depends on the two representatives alone, and on whether a record is kept. -/

section Unify

variable (natives : InstructionSet) {a b : Monotype} {c : TypeContext}

theorem unify_of_same (h : (c.find a).StrictEq (c.find b)) (n : Nat) : unify natives (n + 1) a b c =
    (do record .identity (c.find a).render (c.find b).render "same representative"; return Status.ok)
      c := by
  rw [unify, Stateful.get_then]
  simp only
  rw [if_pos h]

theorem unify_of_variable (h : ¬(c.find a).StrictEq (c.find b))
    (hvar : (c.find a).isVariable = true ∨ (c.find b).isVariable = true) :
    ∃ v m, Meets (.var v) m (c.find a) (c.find b) ∧
      ∀ n, unify natives (n + 1) a b c = bindUnlessInside v m c := by
  have hrun : ∀ n, unify natives (n + 1) a b c = _ := fun n => by rw [unify, Stateful.get_then]
  simp only [hrun, if_neg h]
  revert h hvar
  cases c.find a with
  | var v =>
      exact fun h _ => ⟨v, _, ⟨fun e => h (.of_eq e.symm), Or.inl ⟨rfl, rfl⟩⟩, fun _ => rfl⟩
  | _ =>
      cases c.find b with
      | var w => exact fun h _ => ⟨w, _, ⟨fun e => h (.of_eq e), Or.inr ⟨rfl, rfl⟩⟩, fun _ => rfl⟩
      | _ => exact fun _ hvar => by rcases hvar with hvar | hvar <;> cases hvar

theorem unify_of_rigid (h : ¬(c.find a).StrictEq (c.find b)) (ha : (c.find a).isVariable = false)
    (hb : (c.find b).isVariable = false) (n : Nat) : unify natives (n + 1) a b c =
      decompose (unify natives n) (unifyKind natives n) (c.find a) (c.find b) c := by
  rw [unify, Stateful.get_then]
  simp only
  rw [if_neg h]
  revert ha hb
  cases c.find a with
  | var v => exact fun ha _ => by cases ha
  | _ =>
      cases c.find b with
      | var w => exact fun _ hb => by cases hb
      | _ => exact fun _ _ => rfl

theorem unify_of_clash (h : ¬(c.find a).StrictEq (c.find b)) (ha : (c.find a).isVariable = false)
    (hb : (c.find b).isVariable = false) {status : Status}
    (hclash : clashStatus (c.find a) (c.find b) = some status) :
    ∃ detail, ∀ n, unify natives (n + 1) a b c =
      (do record .error (c.find a).render (c.find b).render detail; return status) c := by
  obtain ⟨detail, hrun⟩ := decompose_of_clash hclash
  exact ⟨detail, fun n => by rw [unify_of_rigid natives h ha hb, hrun]⟩

theorem unify_of_fit (h : ¬(c.find a).StrictEq (c.find b)) (ha : (c.find a).isVariable = false)
    (hb : (c.find b).isVariable = false) (hfit : clashStatus (c.find a) (c.find b) = none) :
    ∃ detail, ∀ n, unify natives (n + 1) a b c = (do
      record .decompose (c.find a).render (c.find b).render detail
      unifyParts (unify natives n) (unifyKind natives n) (c.find a) (c.find b)) c := by
  obtain ⟨detail, hrun⟩ := decompose_of_fit hfit
  exact ⟨detail, fun n => by rw [unify_of_rigid natives h ha hb, hrun]⟩

/-- Types that are no variables stand for themselves. -/
theorem unify_rigid_of_fit (h : ¬a.StrictEq b) (ha : a.isVariable = false) (hb : b.isVariable = false)
    (hfit : clashStatus a b = none) : ∃ detail, ∀ n, unify natives (n + 1) a b c = (do
      record .decompose a.render b.render detail
      unifyParts (unify natives n) (unifyKind natives n) a b) c := by
  have hfinda : c.find a = a := ClassMap.find_rigid ha
  have hfindb : c.find b = b := ClassMap.find_rigid hb
  have hrun := unify_of_fit (a := a) (b := b) (c := c) natives
  rw [hfinda, hfindb] at hrun
  exact hrun h ha hb hfit

end Unify

theorem bindUnlessInside_of_inside {c : TypeContext} {v : TypeVariable} {m : Monotype}
    (h : (c.resolve m).hasInside v = true) :
    (∃ step, Logs .occursCheck step ∧ (c.resolve m).Legible ∧
      bindUnlessInside v m c = .ok .occursCheckFailed (c.noted step)) ∨
    ∃ f, (c.resolve m).render = .error f ∧ bindUnlessInside v m c = .error f c := by
  unfold bindUnlessInside
  rw [Stateful.get_then, if_pos h]
  rcases (c.resolve m).render_cases with ⟨text, hwritten⟩ | ⟨f, hwritten, -⟩
  · rw [Stateful.bind_of_ok (Stateful.ofExcept_eq_ok.mpr ⟨hwritten, rfl⟩), record_then, return_eq]
    exact .inl ⟨_, fun _ => ⟨rfl, rfl⟩, ⟨text, hwritten⟩, rfl⟩
  · exact .inr ⟨f, hwritten, Stateful.bind_of_error (Stateful.ofExcept_error hwritten c)⟩

theorem bindUnlessInside_of_outside {c : TypeContext} {v : TypeVariable} {m : Monotype}
    (h : (c.resolve m).hasInside v = false) :
    (∃ step, Logs .bind step ∧ m.Legible ∧
      bindUnlessInside v m c = .ok .ok ((c.noted step).withType v m)) ∨
    ∃ f, m.render = .error f ∧ bindUnlessInside v m c = .error f c := by
  unfold bindUnlessInside
  rw [Stateful.get_then, if_neg (by rw [h]; exact Bool.false_ne_true)]
  rcases m.render_cases with ⟨text, hwritten⟩ | ⟨f, hwritten, -⟩
  · rw [Stateful.bind_of_ok (Stateful.ofExcept_eq_ok.mpr ⟨hwritten, rfl⟩), record_then, bindType_then,
      return_eq]
    exact .inl ⟨_, fun _ => ⟨rfl, rfl⟩, ⟨text, hwritten⟩, rfl⟩
  · exact .inr ⟨f, hwritten, Stateful.bind_of_error (Stateful.ofExcept_error hwritten c)⟩

/-- What unifying two types has to write. -/
inductive Writes (c : TypeContext) (a b : Monotype) : Monotype → Prop
  | left : c.tracing = true → Writes c a b (c.find a)
  | right : c.tracing = true → Writes c a b (c.find b)
  | inside {v : TypeVariable} {m : Monotype} : Meets (.var v) m (c.find a) (c.find b) →
      (c.resolve m).hasInside v = true → Writes c a b (c.resolve m)
  | bound {v : TypeVariable} {m : Monotype} : Meets (.var v) m (c.find a) (c.find b) →
      (c.resolve m).hasInside v = false → Writes c a b m

/-- Everything that unifying two types can do, given how their parts are unified. -/
inductive UnifyCase (natives : InstructionSet) (n : Nat) (a b : Monotype) (c : TypeContext) :
    EStateM.Result Fault TypeContext Status → Prop
  | same (step : Nat → UnifyStep) : (c.find a).StrictEq (c.find b) → Logs .identity step →
      c.Shows (c.find a) → c.Shows (c.find b) →
      UnifyCase natives n a b c (.ok .ok (c.noted step))
  | inside (v : TypeVariable) (m : Monotype) (step : Nat → UnifyStep) :
      Meets (.var v) m (c.find a) (c.find b) → (c.resolve m).hasInside v = true →
      Logs .occursCheck step → (c.resolve m).Legible →
      UnifyCase natives n a b c (.ok .occursCheckFailed (c.noted step))
  | bind (v : TypeVariable) (m : Monotype) (step : Nat → UnifyStep) :
      Meets (.var v) m (c.find a) (c.find b) → (c.resolve m).hasInside v = false →
      Logs .bind step → m.Legible →
      UnifyCase natives n a b c (.ok .ok ((c.noted step).withType v m))
  | clash (status : Status) (step : Nat → UnifyStep) : (c.find a).isVariable = false →
      (c.find b).isVariable = false → status ≠ .ok → Clash (c.find a) (c.find b) →
      Logs .error step → c.Shows (c.find a) → c.Shows (c.find b) →
      UnifyCase natives n a b c (.ok status (c.noted step))
  | parts (step : Nat → UnifyStep) : (c.find a).isVariable = false →
      (c.find b).isVariable = false → (c.find a).headName = (c.find b).headName →
      (c.find a).params.length = (c.find b).params.length →
      (indexOf (c.find a)).length = (indexOf (c.find b)).length → Logs .decompose step →
      c.Shows (c.find a) → c.Shows (c.find b) →
      UnifyCase natives n a b c
        (unifyParts (unify natives n) (unifyKind natives n) (c.find a) (c.find b) (c.noted step))
  | illegible (m : Monotype) (f : Fault) : c.Writes a b m → m.render = .error f →
      UnifyCase natives n a b c (.error f c)

theorem unifyCase (natives : InstructionSet) (n : Nat) (a b : Monotype) (c : TypeContext) :
    UnifyCase natives n a b c (unify natives (n + 1) a b c) := by
  have hillegible : ∀ {m f}, c.tracing = true → m = c.find a ∨ m = c.find b → m.render = .error f →
      UnifyCase natives n a b c (.error f c) := by
    rintro m f htracing (rfl | rfl) hf
    · exact .illegible _ f (.left htracing) hf
    · exact .illegible _ f (.right htracing) hf
  by_cases hsame : (c.find a).StrictEq (c.find b)
  · rw [unify_of_same natives hsame]
    rcases record_types .identity (c.find a) (c.find b) "same representative" c with
      ⟨step, hlogs, ha, hb, hrun⟩ | ⟨m, f, htracing, hm, hf, hrun⟩
    · rw [Stateful.bind_of_ok hrun, return_eq]
      exact .same step hsame hlogs ha hb
    · rw [Stateful.bind_of_error hrun]
      exact hillegible htracing hm hf
  by_cases hvar : (c.find a).isVariable = true ∨ (c.find b).isVariable = true
  · obtain ⟨v, m, hmeets, hrun⟩ := unify_of_variable natives hsame hvar
    rw [hrun]
    cases hinside : (c.resolve m).hasInside v with
    | true =>
        rcases bindUnlessInside_of_inside hinside with ⟨step, hlogs, hm, hend⟩ | ⟨f, hf, hend⟩
        · rw [hend]
          exact .inside v m step hmeets hinside hlogs hm
        · rw [hend]
          exact .illegible _ f (.inside hmeets hinside) hf
    | false =>
        rcases bindUnlessInside_of_outside hinside with ⟨step, hlogs, hm, hend⟩ | ⟨f, hf, hend⟩
        · rw [hend]
          exact .bind v m step hmeets hinside hlogs hm
        · rw [hend]
          exact .illegible _ f (.bound hmeets hinside) hf
  obtain ⟨ha, hb⟩ := not_or.mp hvar
  rw [Bool.not_eq_true] at ha hb
  cases hstatus : clashStatus (c.find a) (c.find b) with
  | some status =>
      obtain ⟨hclash, hfailed⟩ := clash_of_clashStatus hstatus
      obtain ⟨detail, heq⟩ := unify_of_clash natives hsame ha hb hstatus
      rw [heq]
      rcases record_types .error (c.find a) (c.find b) detail c with
        ⟨step, hlogs, hshowsa, hshowsb, hrun⟩ | ⟨m, f, htracing, hm, hf, hrun⟩
      · rw [Stateful.bind_of_ok hrun, return_eq]
        exact .clash status step ha hb hfailed hclash hlogs hshowsa hshowsb
      · rw [Stateful.bind_of_error hrun]
        exact hillegible htracing hm hf
  | none =>
      obtain ⟨hname, hparams, hindex⟩ := fit_of_clashStatus hstatus
      obtain ⟨detail, heq⟩ := unify_of_fit natives hsame ha hb hstatus
      rw [heq]
      rcases record_types .decompose (c.find a) (c.find b) detail c with
        ⟨step, hlogs, hshowsa, hshowsb, hrun⟩ | ⟨m, f, htracing, hm, hf, hrun⟩
      · rw [Stateful.bind_of_ok hrun]
        exact .parts step ha hb hname hparams hindex hlogs hshowsa hshowsb
      · rw [Stateful.bind_of_error hrun]
        exact hillegible htracing hm hf

theorem unifyKind_keeps {P : TypeContext → Prop} (hnoted : ∀ c step, P c → P (c.noted step))
    (hkind : ∀ c v t, P c → P (c.withKind v t)) (natives : InstructionSet) (n : Nat) (s t : Term) :
    Keeps P (unifyKind natives n s t) := by
  intro c hc
  have hcase := kindCase natives n s t c
  generalize unifyKind natives n s t c = r at hcase ⊢
  cases hcase with
  | same step => exact hnoted c step hc
  | bind v u step => exact hkind _ v u (hnoted c step hc)
  | equal step => exact hnoted c step hc
  | differ step => exact hnoted c step hc
  | fault f => exact hc

/-- Whatever records and bindings leave as it is, unification leaves as it is. -/
theorem unify_keeps {P : TypeContext → Prop} (hnoted : ∀ c step, P c → P (c.noted step))
    (htype : ∀ c v m, P c → P (c.withType v m)) (hkind : ∀ c v t, P c → P (c.withKind v t))
    (natives : InstructionSet) (n : Nat) (a b : Monotype) : Keeps P (unify natives n a b) := by
  induction n generalizing a b with
  | zero => exact fun c hc => hc
  | succ n ih =>
      intro c hc
      have hcase := unifyCase natives n a b c
      generalize unify natives (n + 1) a b c = r at hcase ⊢
      cases hcase with
      | same step => exact hnoted c step hc
      | inside v m step => exact hnoted c step hc
      | bind v m step => exact htype _ v m (hnoted c step hc)
      | clash status step => exact hnoted c step hc
      | illegible m f => exact hc
      | parts step =>
          exact keeps_andThen (keeps_pairwise fun p _ q _ => ih p q) (keeps_pairwise fun i _ j _ =>
            keeps_andThen (unifyKind_keeps hnoted hkind natives n i.1 j.1) (ih i.2 j.2)) _
            (hnoted c step hc)

/-- The bound matters only if parts are unified. Whatever else ends in a fault has to write a type that
cannot be written. -/
theorem unify_uniform (natives : InstructionSet) (a b : Monotype) (c : TypeContext) :
    (∃ result, (∀ n, unify natives (n + 1) a b c = result) ∧
      ∀ f d, result = .error f d → ∃ m, c.Writes a b m ∧ m.render = .error f) ∨
    ((c.find a).isVariable = false ∧ (c.find b).isVariable = false ∧
      ∃ step, ∀ n, unify natives (n + 1) a b c =
        unifyParts (unify natives n) (unifyKind natives n) (c.find a) (c.find b) (c.noted step)) := by
  have hrecord (action : UnifyAction) (detail : String) (status : Status) : ∃ result,
      (do record action (c.find a).render (c.find b).render detail; return status) c = result ∧
      ∀ f d, result = .error f d → ∃ m, c.Writes a b m ∧ m.render = .error f := by
    rcases record_types action (c.find a) (c.find b) detail c with
      ⟨step, -, -, -, hrun⟩ | ⟨m, f, htracing, hm, hf, hrun⟩
    · exact ⟨_, Stateful.bind_of_ok hrun, nofun⟩
    · refine ⟨_, Stateful.bind_of_error hrun, ?_⟩
      rintro f d ⟨⟩
      rcases hm with rfl | rfl
      · exact ⟨_, .left htracing, hf⟩
      · exact ⟨_, .right htracing, hf⟩
  by_cases hsame : (c.find a).StrictEq (c.find b)
  · obtain ⟨result, hresult, hfault⟩ := hrecord .identity "same representative" .ok
    exact .inl ⟨result, fun n => (unify_of_same natives hsame n).trans hresult, hfault⟩
  by_cases hvar : (c.find a).isVariable = true ∨ (c.find b).isVariable = true
  · obtain ⟨v, m, hmeets, hrun⟩ := unify_of_variable natives hsame hvar
    refine .inl ⟨bindUnlessInside v m c, hrun, fun f d hfault => ?_⟩
    cases hinside : (c.resolve m).hasInside v with
    | true =>
        rcases bindUnlessInside_of_inside hinside with ⟨step, -, -, hend⟩ | ⟨f', hf', hend⟩
        · cases hend ▸ hfault
        · cases hend ▸ hfault
          exact ⟨_, .inside hmeets hinside, hf'⟩
    | false =>
        rcases bindUnlessInside_of_outside hinside with ⟨step, -, -, hend⟩ | ⟨f', hf', hend⟩
        · cases hend ▸ hfault
        · cases hend ▸ hfault
          exact ⟨_, .bound hmeets hinside, hf'⟩
  obtain ⟨ha, hb⟩ := not_or.mp hvar
  rw [Bool.not_eq_true] at ha hb
  cases hstatus : clashStatus (c.find a) (c.find b) with
  | some status =>
      obtain ⟨detail, heq⟩ := unify_of_clash natives hsame ha hb hstatus
      obtain ⟨result, hresult, hfault⟩ := hrecord .error detail status
      exact .inl ⟨result, fun n => (heq n).trans hresult, hfault⟩
  | none =>
      obtain ⟨detail, heq⟩ := unify_of_fit natives hsame ha hb hstatus
      rcases record_types .decompose (c.find a) (c.find b) detail c with
        ⟨step, -, -, -, hrun⟩ | ⟨m, f, htracing, hm, hf, hrun⟩
      · exact .inr ⟨ha, hb, step, fun n => (heq n).trans (Stateful.bind_of_ok hrun)⟩
      · refine .inl ⟨.error f c, fun n => (heq n).trans (Stateful.bind_of_error hrun), ?_⟩
        rintro f' d ⟨⟩
        rcases hm with rfl | rfl
        · exact ⟨_, .left htracing, hf⟩
        · exact ⟨_, .right htracing, hf⟩

/-! ## The classes grow

Whatever a run does and however it ends, the classes it leaves have grown from those it found, within
any region that holds of the two resolved types. -/

section Grows

variable {natives : InstructionSet} {R : Region} {c : TypeContext}

theorem resolve_find (hc : c.known.Acyclic) (m : Monotype) :
    c.resolve (c.find m) = c.resolve m := hc.resolve_find m

/-- What an unbound variable and a representative of which it is not a part are bound to. -/
theorem Meets.binds_type {a b m : Monotype} {v : TypeVariable} (hc : c.known.Acyclic)
    (ha : R.Holds (c.resolve a)) (hb : R.Holds (c.resolve b))
    (hmeets : Meets (.var v) m (c.find a) (c.find b))
    (hinside : (c.resolve m).hasInside v = false) :
    Binds R c.known ⟨c.known.types.bind v.key m, c.known.kinds⟩ := by
  obtain ⟨hne, hsides⟩ := hmeets
  have key : ∀ {a b : Monotype}, R.Holds (c.resolve a) → R.Holds (c.resolve b) →
      c.find a = .var v → c.find b = m →
      Binds R c.known ⟨c.known.types.bind v.key m, c.known.kinds⟩ := by
    intro a b ha hb hv hm
    have hget : c.known.types.get? v.key = none := by
      have := hc.next?_find_type a
      rwa [show c.known.types.find a = .var v from hv] at this
    have hnext : c.known.types.next? m = none := hm ▸ hc.next?_find_type b
    have hvR : R.Holds (.var v) := by
      have := hc.resolve_find a
      rw [show c.known.types.find a = .var v from hv, Classes.resolve_var_of_none hget] at this
      rw [this]
      exact ha
    have hmR : R.Holds (c.known.resolve m) := by
      rw [← hm]
      exact (hc.resolve_find b).symm ▸ hb
    refine .type hget hnext ?_ (hvR.types v (by simp)) hmR
    intro hocc
    -- the variable would be the whole type, and then the type is the variable itself
    cases m with
    | var w =>
        rw [Classes.resolve_var_of_none hnext, Monotype.mem_occurrences_var] at hocc
        exact hne (by rw [hocc])
    | _ =>
        have hin := Monotype.hasInside_iff.mpr ⟨Classes.isVariable_resolve rfl, hocc⟩
        exact absurd hin (by simp [hinside])
  rcases hsides with ⟨hv, hm⟩ | ⟨hv, hm⟩
  · exact key ha hb hv hm
  · exact key hb ha hv hm

theorem Meets.binds_kind {s t u : Term} {v : Variable} (hc : c.known.Acyclic)
    (hs : R.terms (c.findKind s)) (ht : R.terms (c.findKind t))
    (hmeets : Meets (.var v) u (c.findKind s) (c.findKind t)) :
    Binds R c.known ⟨c.known.types, c.known.kinds.bind v.key u⟩ := by
  obtain ⟨hne, hsides⟩ := hmeets
  have key : ∀ {s t : Term}, R.terms (c.findKind s) → R.terms (c.findKind t) →
      c.findKind s = .var v → c.findKind t = u →
      Binds R c.known ⟨c.known.types, c.known.kinds.bind v.key u⟩ := by
    intro s t hs ht hv hu
    have hget : c.known.kinds.get? v.key = none := by
      have := hc.next?_find_kind s
      rwa [show c.known.kinds.find s = .var v from hv] at this
    exact .kind hget (hu ▸ hc.next?_find_kind t) hne (hv ▸ hs) (hu ▸ ht)
  rcases hsides with ⟨hv, hu⟩ | ⟨hv, hu⟩
  · exact key hs ht hv hu
  · exact key ht hs hv hu

theorem unifyKind_grows (n : Nat) {s t : Term} (hc : c.known.Acyclic)
    (hs : R.terms (c.findKind s)) (ht : R.terms (c.findKind t)) :
    Grows R c.known (endOf (unifyKind natives n s t c)).known := by
  have hcase := kindCase natives n s t c
  generalize unifyKind natives n s t c = r at hcase ⊢
  cases hcase with
  | same step _ => rw [endOf_ok, known_noted]
  | bind v u step hmeets =>
      rw [endOf_ok, known_withKind, known_noted]
      exact .single (hmeets.binds_kind hc hs ht)
  | equal step => rw [endOf_ok, known_noted]
  | differ step => rw [endOf_ok, known_noted]
  | fault f => rw [endOf_error]

/-- What holds of a type now holds of its parts at every later time. -/
theorem holds_part {m p : Monotype} {d : TypeContext} (hc : c.known.Acyclic)
    (hvar : m.isVariable = false) (hm : R.Holds (c.resolve m)) (hp : p ∈ m.parts)
    (hd : Grows R c.known d.known) : R.Holds (d.resolve p) :=
  (Grows.holds hd hc hm).part (Classes.isVariable_resolve hvar) (Classes.resolve_mem_parts hvar hp)

theorem holds_index {m : Monotype} {j : Term × Monotype} {d : TypeContext} (hc : c.known.Acyclic)
    (hvar : m.isVariable = false) (hm : R.Holds (c.resolve m)) (hj : j ∈ indexOf m)
    (hd : Grows R c.known d.known) : R.terms (d.findKind j.1) := by
  refine (Grows.holds hd hc hm).index (Classes.isVariable_resolve hvar)
    (j := (d.findKind j.1, d.resolve j.2)) ?_
  rw [Classes.indexOf_resolve hvar]
  exact List.mem_map_of_mem hj

theorem unifyParts_grows {n : Nat} {a b : Monotype} (hc : c.known.Acyclic)
    (hunify : ∀ {a b : Monotype} {d : TypeContext}, d.known.Acyclic → R.Holds (d.resolve a) →
      R.Holds (d.resolve b) → Grows R d.known (endOf (unify natives n a b d)).known)
    (havar : a.isVariable = false) (hbvar : b.isVariable = false)
    (ha : R.Holds (c.resolve a)) (hb : R.Holds (c.resolve b)) :
    Keeps (fun d => Grows R c.known d.known)
      (unifyParts (unify natives n) (unifyKind natives n) a b) := by
  have htypes : ∀ p ∈ a.parts, ∀ q ∈ b.parts,
      Keeps (fun d => Grows R c.known d.known) (unify natives n p q) := by
    intro p hp q hq d hd
    exact hd.trans (hunify (hd.acyclic hc) (holds_part hc havar ha hp hd)
      (holds_part hc hbvar hb hq hd))
  refine keeps_andThen (keeps_pairwise fun p hp q hq => ?_) (keeps_pairwise fun i hi j hj => ?_)
  · exact htypes p (Monotype.mem_parts_of_params hp) q (Monotype.mem_parts_of_params hq)
  · refine keeps_andThen (fun d hd => ?_) ?_
    · exact hd.trans (unifyKind_grows n (hd.acyclic hc) (holds_index hc havar ha hi hd)
        (holds_index hc hbvar hb hj hd))
    · exact htypes i.2 (Monotype.mem_parts_of_index hi) j.2
        (Monotype.mem_parts_of_index hj)

theorem unify_grows (n : Nat) {a b : Monotype} (hc : c.known.Acyclic)
    (ha : R.Holds (c.resolve a)) (hb : R.Holds (c.resolve b)) :
    Grows R c.known (endOf (unify natives n a b c)).known := by
  induction n generalizing a b c with
  | zero => exact .refl
  | succ n ih =>
      have hcase := unifyCase natives n a b c
      generalize unify natives (n + 1) a b c = r at hcase ⊢
      cases hcase with
      | same step => rw [endOf_ok, known_noted]
      | inside v m step => rw [endOf_ok, known_noted]
      | bind v m step hmeets hinside =>
          rw [endOf_ok, known_withType, known_noted]
          exact .single (hmeets.binds_type hc ha hb hinside)
      | clash status step => rw [endOf_ok, known_noted]
      | illegible m f => rw [endOf_error]
      | parts step havar hbvar =>
          have ha' : R.Holds (c.resolve (c.find a)) := by rwa [resolve_find hc]
          have hb' : R.Holds (c.resolve (c.find b)) := by rwa [resolve_find hc]
          refine unifyParts_grows hc ih havar hbvar ha' hb' _ ?_
          show Grows R c.known (c.noted step).known
          rw [known_noted]

theorem grows_of_unify {n : Nat} {a b : Monotype} {status : Status} {d : TypeContext}
    (hc : c.known.Acyclic) (h : unify natives n a b c = .ok status d) :
    Grows .all c.known d.known := by
  have hgrows : Grows .all c.known (endOf (unify natives n a b c)).known :=
    unify_grows n hc (Region.all_holds _) (Region.all_holds _)
  rwa [h, endOf_ok] at hgrows

theorem grows_of_unifyKind {n : Nat} {s t : Term} {status : Status} {d : TypeContext}
    (hc : c.known.Acyclic) (h : unifyKind natives n s t c = .ok status d) :
    Grows .all c.known d.known := by
  have hgrows : Grows .all c.known (endOf (unifyKind natives n s t c)).known :=
    unifyKind_grows n hc trivial trivial
  rwa [h, endOf_ok] at hgrows

end Grows

end IndexedLambda.TypeContext
