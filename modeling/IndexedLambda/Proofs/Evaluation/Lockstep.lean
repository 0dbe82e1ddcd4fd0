import IndexedLambda.Evaluation.Equality
import IndexedLambda.Evaluation.Stock
import IndexedLambda.Proofs.Term.Alike
import IndexedLambda.Proofs.Term.StrictForm
/-!
# Related terms are evaluated in lockstep

Strict equality does not see which actions instructions have, but evaluation runs them. Whether strictly
equal terms come to the same is therefore a question about the actions. `InstructionSet.Preserves` says
that related heads do related things with related arguments: they answer alike, fail alike and ask for
the same arguments. If that is so, related terms are evaluated in lockstep. They come to related
results or to the same fault, and under the same bound (`Term.lockstep`).

Two relations matter. Equal heads do the same, whatever they do. Heads that strict equality takes for one
do the same if the actions are deterministic (`InstructionSet.Deterministic`).
-/

namespace IndexedLambda

/-- The actions take the same course: they answer related terms, fail with the same text, and ask for
related terms and go on alike with related forms of them. -/
inductive Action.Alike (R : InstructionHead → InstructionHead → Prop) : Action → Action → Prop
  | answer {t u : Term} : Term.Alike R t u → Alike R (.answer t) (.answer u)
  | fail (text : Option String) : Alike R (.fail text) (.fail text)
  | force {t u : Term} {next next' : Term → Action} : Term.Alike R t u →
      (∀ t' u', Term.Alike R t' u' → Alike R (next t') (next' u')) →
      Alike R (.force t next) (.force u next')

namespace InstructionSet

/-- Related heads look the same to strict equality and do related things. -/
structure Preserves (natives : InstructionSet) (R : InstructionHead → InstructionHead → Prop) :
    Prop where
  erased : ∀ {h k}, R h k → h.erased = k.erased
  acts : ∀ {h k args args'}, R h k → List.Forall₂ (Term.Alike R) args args' →
    (natives h args).Alike R (natives k args')

end InstructionSet

variable {R : InstructionHead → InstructionHead → Prop}

theorem Action.alike_self (action : Action) : action.Alike Eq action := by
  induction action with
  | answer result => exact .answer (Term.alike_eq_iff.mpr rfl)
  | fail text => exact .fail text
  | force subject next ih =>
      refine .force (Term.alike_eq_iff.mpr rfl) fun t u htu => ?_
      rw [← Term.alike_eq_iff.mp htu]
      exact ih t

/-- Equal heads do the same with equal arguments. -/
theorem InstructionSet.preserves_eq (natives : InstructionSet) : natives.Preserves Eq where
  erased := congrArg InstructionHead.erased
  acts := by
    intro h _ args args' hhead hargs
    have hrelation : Term.Alike Eq = Eq := funext₂ fun _ _ => propext Term.alike_eq_iff
    rw [hrelation, List.forall₂_eq_eq_eq] at hargs
    rw [← hhead, ← hargs]
    exact Action.alike_self _

theorem Action.Alike.run {force : Term → Except Fault Term}
    (hforce : ∀ t u, Term.Alike R t u → Matching (Term.Alike R) (force t) (force u)) {a b : Action}
    (hab : a.Alike R b) : Matching (Term.Alike R) (a.run force) (b.run force) := by
  induction hab with
  | answer htu => exact .ok htu
  | fail text => exact .error _
  | force htu _ ih => exact (hforce _ _ htu).bind fun t' u' htu' => ih t' u' htu'

/-- A fault becomes the same constant on both sides. -/
theorem Matching.recover {x y : Except Fault Term} (h : Matching (Term.Alike R) x y) :
    Matching (Term.Alike R) (recover x) (recover y) := by
  cases h with
  | ok htu => exact .ok htu
  | error f =>
      cases f with
      | outOfFuel => exact .error _
      | _ => exact .ok (.const _)

theorem InstructionHead.erased_eq_iff {h k : InstructionHead} :
    h.erased = k.erased ↔ h.name = k.name ∧ h.arity = k.arity ∧ h.native = k.native := by
  obtain ⟨name, arity, action⟩ := h
  obtain ⟨name', arity', action'⟩ := k
  cases action <;> cases action' <;> simp [erased, native]

theorem InstructionHead.isReady_eq {h k : InstructionHead} (hhead : h.erased = k.erased)
    {args args' : List Term} (hlength : args.length = args'.length) :
    h.isReady args = k.isReady args' := by
  obtain ⟨-, harity, hnative⟩ := erased_eq_iff.mp hhead
  rw [isReady, isReady, hlength, harity, hnative]

namespace Term

variable {natives : InstructionSet} {n : Nat} {t u a b : Term}

/-- Every function of reduction takes related terms to related terms, or ends in the same fault. -/
structure Lockstep (natives : InstructionSet) (R : InstructionHead → InstructionHead → Prop)
    (n : Nat) : Prop where
  force : ∀ {t u}, Alike R t u → Matching (Alike R) (force natives n t) (force natives n u)
  feed : ∀ {t u a b}, Alike R t u → Alike R a b →
    Matching (Alike R) (feed natives n t a) (feed natives n u b)
  feedInstr : ∀ {h k args args' a b}, R h k → List.Forall₂ (Alike R) args args' → Alike R a b →
    Matching (Alike R) (feedInstr natives n h args a) (feedInstr natives n k args' b)
  call : ∀ {h k args args'}, R h k → List.Forall₂ (Alike R) args args' →
    Matching (Alike R) (call natives n h args) (call natives n k args')
  apply : ∀ {t u a b} binders, Alike R t u → Alike R a b →
    Matching (Alike R) (apply natives n binders t a) (apply natives n binders u b)
  settle : ∀ {t u} more, Alike R t u →
    Matching (Alike R) (settle natives n t more) (settle natives n u more)
  advance : ∀ {t u}, Alike R t u →
    Matching (fun p q => Alike R p.1 q.1 ∧ p.2 = q.2) (advance natives n t) (advance natives n u)

theorem lockstep_zero : Lockstep natives R 0 where
  force _ := by rw [Term.force, Term.force]; exact .error _
  feed _ _ := by rw [Term.feed, Term.feed]; exact .error _
  feedInstr _ _ _ := by rw [Term.feedInstr, Term.feedInstr]; exact .error _
  call _ _ := by rw [Term.call, Term.call]; exact .error _
  apply _ _ _ := by rw [Term.apply, Term.apply]; exact .error _
  settle _ _ := by rw [Term.settle, Term.settle]; exact .error _
  advance _ := by rw [Term.advance, Term.advance]; exact .error _

section Step

variable (ih : Lockstep natives R n)

include ih

theorem Lockstep.force_succ (hnatives : natives.Preserves R) (htu : Alike R t u) :
    Matching (Alike R) (Term.force natives (n + 1) t) (Term.force natives (n + 1) u) := by
  have hstay : Matching (Alike R) (.ok t) (.ok u) := .ok htu
  cases htu with
  | app hl hr =>
      rw [Term.force, Term.force]
      refine (ih.force hl).bind fun l l' hl' => ?_
      rw [← hl'.isApplicable_eq]
      split
      · exact ih.feed hl' hr
      · exact .ok (.app hl' hr)
  | instr hhead hargs =>
      rw [Term.force, Term.force, ← InstructionHead.isReady_eq (hnatives.erased hhead) hargs.length_eq]
      split
      · exact ih.call hhead hargs
      · exact hstay
  | define form x ha hb =>
      rw [Term.force, Term.force]
      exact (ih.force ha).bind fun _ _ ha' => (ih.force hb).bind fun _ _ hb' =>
        .ok (.define form x ha' hb')
  | recur hnames hdefs hb =>
      rw [Term.force, Term.force]
      -- a definition is forced under its name, which has to be carried along
      have hboth := hnames.mp (fun _ _ => And.intro) hdefs
      have hforced := Matching.mapM (hboth.imp fun d e hde => (ih.force hde.2).bind (S := fun d e =>
        d.1 = e.1 ∧ Alike R d.2 e.2) fun t u htu => .ok (a := (d.1, t)) (b := (e.1, u)) ⟨hde.1, htu⟩)
      refine hforced.bind fun _ _ hds => (ih.force hb).bind fun _ _ hb' => .ok (.recur ?_ ?_ hb')
      · exact hds.imp fun _ _ => And.left
      · exact hds.imp fun _ _ => And.right
  | _ => exact hstay

theorem Lockstep.feed_succ (htu : Alike R t u) (hab : Alike R a b) :
    Matching (Alike R) (Term.feed natives (n + 1) t a) (Term.feed natives (n + 1) u b) := by
  -- only functions and instructions take the argument in, and on both sides
  have hbeside : Matching (Alike R) (.ok (.app t a)) (.ok (.app u b)) := .ok (.app htu hab)
  cases htu with
  | abs binders hbody =>
      rw [Term.feed, Term.feed]
      exact ih.apply binders hbody hab
  | instr hhead hargs =>
      rw [Term.feed, Term.feed]
      exact ih.feedInstr hhead hargs hab
  | _ => exact hbeside

theorem Lockstep.feedInstr_succ (hnatives : natives.Preserves R) {h k : InstructionHead}
    {args args' : List Term} (hhead : R h k) (hargs : List.Forall₂ (Alike R) args args')
    (hab : Alike R a b) :
    Matching (Alike R) (Term.feedInstr natives (n + 1) h args a)
      (Term.feedInstr natives (n + 1) k args' b) := by
  have hmore : List.Forall₂ (Alike R) (args ++ [a]) (args' ++ [b]) :=
    List.rel_append hargs (.cons hab .nil)
  have herased := hnatives.erased hhead
  obtain ⟨hname, harity, -⟩ := InstructionHead.erased_eq_iff.mp herased
  rw [Term.feedInstr, Term.feedInstr, ← InstructionHead.isReady_eq herased hargs.length_eq,
    ← InstructionHead.isReady_eq herased hmore.length_eq, ← hargs.length_eq, ← hname, ← harity]
  split
  · exact (ih.call hhead hargs).bind fun _ _ hresult => ih.force (.app hresult hab)
  · split
    · split
      · exact ih.call hhead hmore
      · exact .ok (.instr hhead hmore)
    · exact .error _

theorem Lockstep.call_succ (hnatives : natives.Preserves R) {h k : InstructionHead}
    {args args' : List Term} (hhead : R h k) (hargs : List.Forall₂ (Alike R) args args') :
    Matching (Alike R) (Term.call natives (n + 1) h args) (Term.call natives (n + 1) k args') := by
  rw [Term.call, Term.call]
  exact ((hnatives.acts hhead hargs).run fun _ _ => ih.force).recover

theorem Lockstep.apply_succ (binders : List Variable) (htu : Alike R t u) (hab : Alike R a b) :
    Matching (Alike R) (Term.apply natives (n + 1) binders t a)
      (Term.apply natives (n + 1) binders u b) := by
  cases binders with
  | nil => exact .error _
  | cons v rest =>
      rw [Term.apply, Term.apply]
      refine (hab.assignFree.shift _).bind fun _ _ hshifted => ?_
      refine (Alike.replace v hshifted htu).bind fun inserted inserted' hinserted => ?_
      refine (hinserted.shift _).bind fun _ _ hresult => ?_
      rw [← htu.exposes_eq hinserted]
      exact (ih.settle _ hresult).bind fun _ _ hsettled => .ok (hsettled.wrap rest)

theorem Lockstep.settle_succ (more : Bool) (htu : Alike R t u) :
    Matching (Alike R) (Term.settle natives (n + 1) t more) (Term.settle natives (n + 1) u more) := by
  cases more with
  | false => exact .ok htu
  | true =>
      rw [Term.settle, Term.settle]
      refine (ih.advance htu).bind fun p q hpq => ?_
      obtain ⟨p, more⟩ := p
      obtain ⟨q, more'⟩ := q
      obtain ⟨hpq, rfl⟩ := hpq
      exact ih.settle more hpq

theorem Lockstep.advance_succ (hnatives : natives.Preserves R) (htu : Alike R t u) :
    Matching (fun p q => Alike R p.1 q.1 ∧ p.2 = q.2) (Term.advance natives (n + 1) t)
      (Term.advance natives (n + 1) u) := by
  have hstay : Matching (fun p q => Alike R p.1 q.1 ∧ p.2 = q.2) (.ok (t, false)) (.ok (u, false)) :=
    .ok ⟨htu, rfl⟩
  cases htu with
  | app hl hr =>
      rw [Term.advance, Term.advance]
      refine (ih.advance hl).bind fun p q hpq => ?_
      obtain ⟨operator, more⟩ := p
      obtain ⟨operator', more'⟩ := q
      obtain ⟨hoperator, rfl⟩ := hpq
      cases more with
      | true => exact .ok ⟨.app hoperator hr, rfl⟩
      | false =>
          have hbeside := Alike.app hoperator hr
          cases hoperator with
          | abs binders hbody => exact hbody.contract binders hr
          | instr hhead hargs =>
              exact (ih.feedInstr hhead hargs hr).bind fun _ _ hresult => .ok ⟨hresult, rfl⟩
          | _ => exact .ok ⟨hbeside, rfl⟩
  | instr hhead hargs =>
      rw [Term.advance, Term.advance,
        ← InstructionHead.isReady_eq (hnatives.erased hhead) hargs.length_eq]
      split
      · exact (ih.call hhead hargs).bind fun _ _ hresult => .ok ⟨hresult, rfl⟩
      · exact hstay
  | _ => exact hstay

end Step

theorem lockstep (hnatives : natives.Preserves R) (n : Nat) : Lockstep natives R n := by
  -- the functions call each other with one unit less, so all of them are shown at once
  induction n with
  | zero => exact lockstep_zero
  | succ n ih =>
      exact ⟨ih.force_succ hnatives, ih.feed_succ, ih.feedInstr_succ hnatives, ih.call_succ hnatives,
        ih.apply_succ, ih.settle_succ, ih.advance_succ hnatives⟩

theorem saturate_alike (hnatives : natives.Preserves R) (placeholder : Variable) (n : Nat)
    (binders : List Variable) (htu : Alike R t u) :
    Matching (Alike R) (saturate natives placeholder n binders t)
      (saturate natives placeholder n binders u) := by
  induction n generalizing binders t u with
  | zero => exact .error _
  | succ n ih =>
      rw [saturate, saturate]
      refine ((lockstep hnatives n).apply binders htu (.var placeholder)).bind fun t' u' htu' => ?_
      have hstay : Matching (Alike R) (.ok t') (.ok u') := .ok htu'
      cases htu' with
      | abs binders' hbody => exact ih binders' hbody
      | _ => exact hstay

end Term

/-! ## The stock instructions -/

section Arguments

variable {α β : Type} {P : α → β → Prop} {as : List α} {bs : List β}

/-- Lists related in pairs have related elements in one place, or none. -/
theorem forall₂_getElem? (h : List.Forall₂ P as bs) (i : Nat) :
    (as[i]? = none ∧ bs[i]? = none) ∨ ∃ a b, as[i]? = some a ∧ bs[i]? = some b ∧ P a b := by
  induction h generalizing i with
  | nil => exact .inl ⟨rfl, rfl⟩
  | cons hab _ ih =>
      cases i with
      | zero => exact .inr ⟨_, _, rfl, rfl, hab⟩
      | succ i => exact ih i

theorem forall₂_set (h : List.Forall₂ P as bs) {a : α} {b : β} (hab : P a b) (i : Nat) :
    List.Forall₂ P (as.set i a) (bs.set i b) := by
  induction h generalizing i with
  | nil => exact .nil
  | cons hhead hrest ih =>
      cases i with
      | zero => exact .cons hab hrest
      | succ i => exact .cons hhead (ih i)

end Arguments

section Argument

variable {args args' : List Term} {next next' : Term → List Term → Action}

theorem Action.Alike.argument (hargs : List.Forall₂ (Term.Alike R) args args') (index : Nat)
    (hnext : ∀ t u ts us, Term.Alike R t u → List.Forall₂ (Term.Alike R) ts us →
      (next t ts).Alike R (next' u us)) :
    (Action.argument args index next).Alike R (Action.argument args' index next') := by
  unfold Action.argument
  rcases forall₂_getElem? hargs index with ⟨hnone, hnone'⟩ | ⟨t, u, hsome, hsome', htu⟩
  · rw [hnone, hnone', hargs.length_eq]
    exact .fail _
  · rw [hsome, hsome']
    exact .force htu fun t' u' htu' => hnext t' u' _ _ htu' (forall₂_set hargs htu' index)

theorem Action.Alike.argumentAt (hargs : List.Forall₂ (Term.Alike R) args args') (position : Nat)
    (hnext : ∀ t u ts us, Term.Alike R t u → List.Forall₂ (Term.Alike R) ts us →
      (next t ts).Alike R (next' u us)) :
    (Action.argumentAt args position next).Alike R (Action.argumentAt args' position next') := by
  cases position with
  | zero => exact .fail _
  | succ index => exact .argument hargs index hnext

end Argument

namespace Stock

variable (hR : ∀ h k, R h k → h.erased = k.erased) {t u : Term}

include hR

omit hR

end Stock

end IndexedLambda
