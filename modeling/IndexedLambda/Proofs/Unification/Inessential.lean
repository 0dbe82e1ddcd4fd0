import IndexedLambda.Proofs.Unification.Throughout
/-!
# What unification does not look at

Of its context unification reads the classes, and whether a record is kept. A change of the context
that leaves the classes alone, and that can be made before or after a step is recorded and a variable
is bound, is inessential: it can be made before or after a whole run. The status or the fault is the
same, and the contexts differ by that change.

Two changes of this sort are used: another stack, and another record or none at all. The second is one
only as long as everything can be written that a record takes. So what is inessential is said for types
of some sort and up to the faults that are excused.
-/

namespace IndexedLambda.TypeContext

variable {ε α β : Type} {g : TypeContext → TypeContext}

/-- The result with its context changed. -/
def changed (g : TypeContext → TypeContext) :
    EStateM.Result ε TypeContext α → EStateM.Result ε TypeContext α
  | .ok a c => .ok a (g c)
  | .error e c => .error e (g c)

/-- In a context of the given sort it makes no difference whether the context is changed before the
computation or after it, unless the computation ends in an excused fault. -/
def CommutesWith (P : TypeContext → Prop) (excused : Fault → Prop) (g : TypeContext → TypeContext)
    (x : ContextM α) : Prop :=
  ∀ c, P c → x (g c) = changed g (x c) ∨ ∃ f d, x c = .error f d ∧ excused f

/-- A change of the context that unification of types of the given sort does not notice, unless it ends
in an excused fault. -/
structure Inessential (P : Monotype → Prop) (excused : Fault → Prop)
    (g : TypeContext → TypeContext) : Prop where
  known : ∀ c, (g c).known = c.known
  noted : ∀ c step, (g c).noted step = g (c.noted step)
  withType : ∀ c v m, (g c).withType v m = g (c.withType v m)
  withKind : ∀ c v t, (g c).withKind v t = g (c.withKind v t)
  recorded : ∀ action {a b}, P a → P b → ∀ detail,
    CommutesWith (fun _ => True) excused g (record action a.render b.render detail)

section Read

variable {P : Monotype → Prop} {excused : Fault → Prop} (hg : Inessential P excused g)
  (c : TypeContext)

include hg

theorem Inessential.find (m : Monotype) : (g c).find m = c.find m := by
  show (g c).known.types.find m = c.known.types.find m
  rw [hg.known]

theorem Inessential.findKind (t : Term) : (g c).findKind t = c.findKind t := by
  show (g c).known.kinds.find t = c.known.kinds.find t
  rw [hg.known]

theorem Inessential.resolve (m : Monotype) : (g c).resolve m = c.resolve m := by
  show (g c).known.resolve m = c.known.resolve m
  rw [hg.known]

end Read

namespace CommutesWith

section Sequence

variable {P : TypeContext → Prop} {excused : Fault → Prop}

theorem pure (a : α) : CommutesWith P excused g (Pure.pure a : ContextM α) := fun _ _ => .inl rfl

theorem throw (f : Fault) : CommutesWith P excused g (MonadExcept.throw f : ContextM α) :=
  fun _ _ => .inl rfl

theorem ofExcept (x : Except Fault α) : CommutesWith P excused g (IndexedLambda.ofExcept x) := by
  cases x with
  | ok a => exact .pure a
  | error f => exact .throw f

theorem bind {x : ContextM α} {f : α → ContextM β} (hx : CommutesWith P excused g x)
    (hkeeps : Keeps P x) (hf : ∀ a, CommutesWith P excused g (f a)) :
    CommutesWith P excused g (x >>= f) := by
  intro c hc
  rcases hx c hc with hcommutes | ⟨e, d, hrun, he⟩
  · cases hrun : x c with
    | ok a d =>
        rw [hrun] at hcommutes
        rw [Stateful.bind_of_ok hrun, Stateful.bind_of_ok hcommutes]
        exact hf a d (hkeeps.of_ok hrun hc)
    | error e d =>
        rw [hrun] at hcommutes
        rw [Stateful.bind_of_error hrun, Stateful.bind_of_error hcommutes]
        exact .inl rfl
  · exact .inr ⟨e, d, Stateful.bind_of_error hrun, he⟩

/-- What is read of the context may be anything that the change leaves alone. -/
theorem get_then {f : TypeContext → ContextM α} (hread : ∀ c, f (g c) = f c)
    (hf : ∀ c, P c → CommutesWith P excused g (f c)) : CommutesWith P excused g (get >>= f) := by
  intro c hc
  rw [Stateful.get_then, Stateful.get_then, hread]
  exact hf c hc c hc

theorem pairwise {relate : α → α → ContextM Status} {as bs : List α}
    (h : ∀ a ∈ as, ∀ b ∈ bs, CommutesWith P excused g (relate a b))
    (hkeeps : ∀ a ∈ as, ∀ b ∈ bs, Keeps P (relate a b)) :
    CommutesWith P excused g (pairwise relate as bs) := by
  induction as generalizing bs with
  | nil => exact .pure _
  | cons a as ih =>
      cases bs with
      | nil => exact .pure _
      | cons b bs =>
          refine .bind (h a (by simp) b (by simp)) (hkeeps a (by simp) b (by simp)) fun status => ?_
          split
          · exact ih
              (fun a' ha' b' hb' => h a' (List.mem_cons_of_mem a ha') b' (List.mem_cons_of_mem b hb'))
              fun a' ha' b' hb' => hkeeps a' (List.mem_cons_of_mem a ha') b' (List.mem_cons_of_mem b hb')
          · exact .pure _

end Sequence

/-! ## Unification -/

section Unification

variable {P : Monotype → Prop} {excused : Fault → Prop} (hg : Inessential P excused g)

include hg

theorem noted (action : UnifyAction) (left right detail : String) :
    CommutesWith (fun c => c.known.types.Throughout P) excused g
      (record action (.ok left) (.ok right) detail) := by
  intro c _
  refine .inl ?_
  rw [record_ok, record_ok, hg.noted]
  rfl

theorem bindType (v : TypeVariable) (m : Monotype) :
    CommutesWith (fun c => c.known.types.Throughout P) excused g (bindType v m) :=
  fun c _ => .inl (congrArg (EStateM.Result.ok ()) (hg.withType c v m))

theorem bindKind (v : Variable) (t : Term) :
    CommutesWith (fun c => c.known.types.Throughout P) excused g (bindKind v t) :=
  fun c _ => .inl (congrArg (EStateM.Result.ok ()) (hg.withKind c v t))

/-- A step is recorded and a status returned. -/
theorem conclude (action : UnifyAction) (left right detail : String) (status : Status) :
    CommutesWith (fun c => c.known.types.Throughout P) excused g
      (do record action (.ok left) (.ok right) detail; return status) :=
  .bind (.noted hg action left right detail) (record_keeps_throughout _ _ _ _) fun _ => .pure _

/-- The same with the two types of the step. -/
theorem concludeTypes (action : UnifyAction) {a b : Monotype} (ha : P a) (hb : P b) (detail : String)
    (status : Status) : CommutesWith (fun c => c.known.types.Throughout P) excused g
      (do record action a.render b.render detail; return status) :=
  .bind (fun c _ => hg.recorded action ha hb detail c trivial) (record_keeps_throughout _ _ _ _)
    fun _ => .pure _

theorem unifyKind (natives : InstructionSet) (n : Nat) (s t : Term) :
    CommutesWith (fun c => c.known.types.Throughout P) excused g (unifyKind natives n s t) := by
  refine .get_then (fun c => by simp only [hg.findKind]) fun c _ => ?_
  simp only
  split
  · exact .conclude hg _ _ _ _ _
  · split
    · exact .bind (.noted hg _ _ _ _) (record_keeps_throughout _ _ _ _) fun _ =>
        .bind (.bindKind hg _ _) (fun _ hc => hc) fun _ => .pure _
    · exact .bind (.noted hg _ _ _ _) (record_keeps_throughout _ _ _ _) fun _ =>
        .bind (.bindKind hg _ _) (fun _ hc => hc) fun _ => .pure _
    · split
      · exact .throw _
      · exact .conclude hg _ _ _ _ _
      · exact .conclude hg _ _ _ _ _

variable (hP : Monotype.Pervasive P)

include hP

theorem decompose {natives : InstructionSet} {n : Nat}
    (hunify : ∀ {a b}, P a → P b → CommutesWith (fun c => c.known.types.Throughout P) excused g
      (TypeContext.unify natives n a b)) {a b : Monotype} (ha : P a) (hb : P b) :
    CommutesWith (fun c => c.known.types.Throughout P) excused g
      (decompose (TypeContext.unify natives n) (TypeContext.unifyKind natives n) a b) := by
  have hpart : ∀ p ∈ a.parts, ∀ q ∈ b.parts, P p ∧ P q :=
    fun p hp q hq => ⟨hP.part ha hp, hP.part hb hq⟩
  have hkeeps {p q : Monotype} (h : P p ∧ P q) : Keeps (fun c => c.known.types.Throughout P)
      (TypeContext.unify natives n p q) := unify_keeps_throughout hP id (fun h _ => h) n h.1 h.2
  unfold TypeContext.decompose
  simp only
  split
  · exact .concludeTypes hg _ ha hb _ _
  · split
    · exact .concludeTypes hg _ ha hb _ _
    · split
      · exact .concludeTypes hg _ ha hb _ _
      · refine .bind (fun c _ => hg.recorded _ ha hb _ c trivial) (record_keeps_throughout _ _ _ _)
          fun _ => ?_
        have hparams : ∀ p ∈ a.params, ∀ q ∈ b.params, P p ∧ P q := fun p hp q hq =>
          hpart p (Monotype.mem_parts_of_params hp) q (Monotype.mem_parts_of_params hq)
        refine .bind (.pairwise (fun p hp q hq => hunify (hparams p hp q hq).1 (hparams p hp q hq).2)
          fun p hp q hq => hkeeps (hparams p hp q hq))
          (keeps_pairwise fun p hp q hq => hkeeps (hparams p hp q hq)) fun status => ?_
        split
        · have hindex : ∀ i ∈ indexOf a, ∀ j ∈ indexOf b, P i.2 ∧ P j.2 := fun i hi j hj =>
            hpart i.2 (Monotype.mem_parts_of_index hi) j.2 (Monotype.mem_parts_of_index hj)
          refine .pairwise (fun i hi j hj => ?_) fun i hi j hj =>
            keeps_andThen (unifyKind_keeps_throughout n i.1 j.1) (hkeeps (hindex i hi j hj))
          refine .bind (.unifyKind hg natives n i.1 j.1) (unifyKind_keeps_throughout n i.1 j.1)
            fun status => ?_
          split
          · exact hunify (hindex i hi j hj).1 (hindex i hi j hj).2
          · exact .pure _
        · exact .pure _

omit hP in
theorem bindUnlessInside (v : TypeVariable) {m : Monotype} (hm : P m) :
    CommutesWith (fun c => c.known.types.Throughout P) excused g (bindUnlessInside v m) := by
  have hkeeps {α : Type} (x : Except Fault α) :
      Keeps (fun c => c.known.types.Throughout P) (IndexedLambda.ofExcept x : ContextM α) :=
    .ofExcept x
  refine .get_then (fun c => by simp only [hg.resolve]) fun c _ => ?_
  simp only
  split
  · exact .bind (.ofExcept _) (hkeeps _) fun _ => .conclude hg _ _ _ _ _
  · refine .bind (.ofExcept _) (hkeeps _) fun _ =>
      .bind (.noted hg _ _ _ _) (record_keeps_throughout _ _ _ _) fun _ =>
        .bind (.bindType hg _ _) (fun c hc => ?_) fun _ => .pure _
    exact hc.bind v.key hm

/-- Unification does the same in the changed context. -/
theorem unify (natives : InstructionSet) (n : Nat) {a b : Monotype} (ha : P a) (hb : P b) :
    CommutesWith (fun c => c.known.types.Throughout P) excused g (unify natives n a b) := by
  induction n generalizing a b with
  | zero => exact .throw _
  | succ n ih =>
      refine .get_then (fun c => by simp only [hg.find]) fun c hc => ?_
      have ha' : P (c.find a) := throughout_find hc ha
      have hb' : P (c.find b) := throughout_find hc hb
      generalize c.find a = a' at ha' ⊢
      generalize c.find b = b' at hb' ⊢
      simp only
      split
      · exact .concludeTypes hg _ ha' hb' _ _
      · split
        · exact .bindUnlessInside hg _ hb'
        · exact .bindUnlessInside hg _ ha'
        · exact .decompose hg hP ih ha' hb'

end Unification

end CommutesWith

end IndexedLambda.TypeContext
