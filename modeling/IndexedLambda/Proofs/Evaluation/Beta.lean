import Mathlib.Logic.Relation
import IndexedLambda.Proofs.Evaluation.Trace
/-!
# Forcing is beta reduction

`Term.Beta` contracts one redex anywhere in a term. The argument takes the place of the outermost binder
and the other binders remain. On terms without instructions whose names and depths agree and whose
occurrences are all assigned, everything the evaluator does is a sequence of such steps: forcing, the
head normal form, and the application of an abstraction, which makes at least one.

The evaluator raises, replaces by name and depth, and lowers; that this is a contraction is
`contract_eq_ok`. What is left is that sequences of steps are compatible with the contexts in which the
evaluator reduces, and that the terms stay of that kind, which is `evaluable_plain`.
-/

namespace IndexedLambda

/-- Sound, without instructions, and with all occurrences assigned. -/
def Discipline.plain : Discipline := Discipline.sound.and (Discipline.instructionFree.and .assigned)

namespace Term

/-- One beta step. -/
inductive Beta : Term → Term → Prop
  | contract (v : Variable) (rest : List Variable) (body arg : Term) :
      Beta (.app (.abs (v :: rest) body) arg) (wrap rest (body.instantiate rest.length arg))
  | abs {body body' : Term} (binders : List Variable) : Beta body body' →
      Beta (.abs binders body) (.abs binders body')
  | operator {l l' : Term} (r : Term) : Beta l l' → Beta (.app l r) (.app l' r)
  | operand {r r' : Term} (l : Term) : Beta r r' → Beta (.app l r) (.app l r')
  | elem {t t' : Term} (before after : List Term) : Beta t t' →
      Beta (.list (before ++ t :: after)) (.list (before ++ t' :: after))
  | argument {t t' : Term} (head : InstructionHead) (before after : List Term) : Beta t t' →
      Beta (.instr head (before ++ t :: after)) (.instr head (before ++ t' :: after))
  | assignment {a a' : Term} (form : LetForm) (x : String) (b : Term) : Beta a a' →
      Beta (.define form x a b) (.define form x a' b)
  | scope {b b' : Term} (form : LetForm) (x : String) (a : Term) : Beta b b' →
      Beta (.define form x a b) (.define form x a b')
  | definition {t t' : Term} (before after : List (String × Term)) (x : String) (b : Term) :
      Beta t t' → Beta (.recur (before ++ (x, t) :: after) b) (.recur (before ++ (x, t') :: after) b)
  | block {b b' : Term} (defs : List (String × Term)) : Beta b b' →
      Beta (.recur defs b) (.recur defs b')

/-- Finitely many beta steps. -/
abbrev Reduces : Term → Term → Prop := Relation.ReflTransGen Beta

namespace Reduces

theorem abs {body body' : Term} (binders : List Variable) (h : Reduces body body') :
    Reduces (.abs binders body) (.abs binders body') :=
  h.lift (Term.abs binders) fun _ _ => .abs binders

theorem wrap {body body' : Term} (binders : List Variable) (h : Reduces body body') :
    Reduces (wrap binders body) (Term.wrap binders body') := by
  cases binders with
  | nil => exact h
  | cons v rest => exact h.abs (v :: rest)

theorem operator {l l' : Term} (r : Term) (h : Reduces l l') : Reduces (.app l r) (.app l' r) :=
  h.lift (Term.app · r) fun _ _ => .operator r

theorem define {a a' b b' : Term} (form : LetForm) (x : String) (ha : Reduces a a')
    (hb : Reduces b b') : Reduces (.define form x a b) (.define form x a' b') :=
  (ha.lift (Term.define form x · b) fun _ _ => .assignment form x b).trans
    (hb.lift (Term.define form x a') fun _ _ => .scope form x a')

/-- The definitions are reduced one after the other; those before are done already. -/
theorem definitions (before : List (String × Term)) {defs defs' : List (String × Term)} (b : Term)
    (h : List.Forall₂ (fun p q => p.1 = q.1 ∧ Reduces p.2 q.2) defs defs') :
    Reduces (.recur (before ++ defs) b) (.recur (before ++ defs') b) := by
  induction h generalizing before with
  | nil => exact .refl
  | @cons p q defs defs' hpq _ ih =>
      obtain ⟨x, t⟩ := p
      obtain ⟨y, t'⟩ := q
      obtain ⟨rfl, ht⟩ := hpq
      have hfirst : Reduces (.recur (before ++ (x, t) :: defs) b)
          (.recur (before ++ (x, t') :: defs) b) :=
        ht.lift (fun t => Term.recur (before ++ (x, t) :: defs) b) fun _ _ =>
          .definition before defs x b
      exact hfirst.trans (by simpa using ih (before ++ [(x, t')]))

theorem recur {defs defs' : List (String × Term)} {b b' : Term}
    (hdefs : List.Forall₂ (fun p q => p.1 = q.1 ∧ Reduces p.2 q.2) defs defs') (hb : Reduces b b') :
    Reduces (.recur defs b) (.recur defs' b') :=
  (definitions [] b hdefs).trans (hb.lift (Term.recur defs') fun _ _ => .block defs')

end Reduces

theorem compatible_reduces : Compatible (fun _ => Reduces) where
  refl _ := .refl
  trans := .trans
  contract v rest body arg := .single (.contract v rest body arg)
  wrap rest h := h.wrap rest
  operator r h := h.operator r
  define form x ha hb := ha.define form x hb
  recur := .recur

/-! ## The evaluator -/

variable {natives : InstructionSet} {n : Nat}

theorem evaluable_plain (natives : InstructionSet) :
    Evaluable natives .plain (fun d _ => d = .plain ∧ True) := by
  refine evaluable_of_instructionFree natives (Discipline.sound_portable.and
    (Discipline.instructionFree_portable.and Discipline.assigned_portable))
    (fun ht => (respects_and.mp ht).1) (fun h => h.2.1) ?_
  rintro scope arg - harg
  rwa [(respects_and.mp (respects_and.mp harg).2).2.assignFree_eq_self]

/-- What the functions of reduction give with the given fuel is reached by beta steps. -/
structure FollowsBeta (natives : InstructionSet) (n : Nat) : Prop where
  force : ∀ {scope} {t t' : Term}, t.Respects .plain scope → force natives n t = .ok t' →
    Reduces t t'
  feed : ∀ {scope} {t arg t' : Term}, t.Respects .plain scope → arg.Respects .plain scope →
    feed natives n t arg = .ok t' → Reduces (.app t arg) t'
  apply : ∀ {scope binders body} {arg t : Term}, (abs binders body).Respects .plain scope →
    arg.Respects .plain scope → apply natives n binders body arg = .ok t →
    Relation.TransGen Beta (.app (.abs binders body) arg) t
  settle : ∀ {scope flag} {t t' : Term}, t.Respects .plain scope →
    settle natives n t flag = .ok t' → Reduces t t'
  advance : ∀ {scope more} {t t' : Term}, t.Respects .plain scope →
    advance natives n t = .ok (t', more) → Reduces t t'

theorem followed_reduces (natives : InstructionSet) :
    Followed natives .plain (fun _ => True) (fun _ => Reduces) where
  toCompatible := compatible_reduces
  evaluable := evaluable_plain natives
  free h := h.2.1
  prepare f _ harg := by
    rw [(respects_and.mp (respects_and.mp harg).2).2.assignFree_eq_self]

theorem followsBeta (natives : InstructionSet) (n : Nat) : FollowsBeta natives n := by
  have htraces := (followed_reduces natives).traces n
  refine ⟨htraces.force trivial, htraces.feed trivial, fun {_ _ body arg _} hf harg h => ?_,
    htraces.settle, htraces.advance⟩
  obtain ⟨v, rest, rfl, hrest⟩ := htraces.apply trivial hf harg h
  -- nothing is unassigned, so preparing the argument has changed nothing
  rw [(respects_and.mp (respects_and.mp harg).2).2.assignFree_eq_self] at hrest
  exact .head' (.contract v rest body arg) hrest

theorem headNormal_reduces {t t' : Term} (ht : t.Respects .plain [])
    (h : headNormal natives n t = .ok t') :
    Reduces t t' ∧ ∃ m, force natives m t' = .ok t' := by
  obtain ⟨hreduces, -, hfixed⟩ := (followed_reduces natives).headNormal trivial ht h
  exact ⟨hreduces, hfixed⟩

/-- **Evaluation is beta reduction.** On a well-formed term without instructions and without unassigned
occurrences, forcing gives a term reached by beta steps, the head normal form is reached by beta steps
and stays as it is when forced, and if the term applies an abstraction, then application gives a term
reached by at least one step. -/
theorem evaluation_is_beta_reduction {natives : InstructionSet} {n : Nat} {t : Term}
    (ht : t.WellFormed) (hsize : t.Addressable) (hfree : t.InstructionFree) (hassigned : t.Assigned) :
    (∀ t', force natives n t = .ok t' → Reduces t t') ∧
    (∀ t', headNormal natives n t = .ok t' → Reduces t t' ∧ ∃ m, force natives m t' = .ok t') ∧
    (∀ binders body arg t', t = .app (.abs binders body) arg →
      apply natives n binders body arg = .ok t' → Relation.TransGen Beta t t') := by
  have hplain : t.Respects .plain [] := respects_and.mpr
    ⟨respects_and.mpr ⟨ht, hsize⟩, respects_and.mpr ⟨hfree, hassigned⟩⟩
  refine ⟨fun t' h => (followsBeta natives n).force hplain h,
    fun t' h => headNormal_reduces hplain h, ?_⟩
  rintro binders body arg t' rfl h
  obtain ⟨hf, harg⟩ := respects_app.mp hplain
  exact (followsBeta natives n).apply hf harg h

/-- The definition `(λx y. y x) c (λz. z)` of a local name takes three steps to `c`. -/
theorem evaluation_is_beta_reduction_of_let :
    let t := define .letIn "d" (.app (.app (.abs [⟨"x", 2⟩, ⟨"y", 1⟩]
      (.app (.var ⟨"y", 1⟩) (.var ⟨"x", 2⟩))) (.const "c")) (.abs [⟨"z", 1⟩] (.var ⟨"z", 1⟩)))
      (.const "d")
    let result := define .letIn "d" (.const "c") (.const "d")
    force (fun _ _ => .fail none) 20 t = .ok result ∧ Reduces t result := by
  intro t result
  have hforce : force (fun _ _ => .fail none) 20 t = .ok result := rfl
  exact ⟨hforce, (evaluation_is_beta_reduction (by decide) (by decide) (by decide) (by decide)).1
    result hforce⟩

end Term

end IndexedLambda
