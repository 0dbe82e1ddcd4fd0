import IndexedLambda.Evaluation.Equality
/-!
# Comparing terms the other way round

Computational equality forces its left side first and then its right side, and it compares parts
from left to right. With the two terms exchanged everything is done in another order, but nothing
else is done: the same parts are compared, and the comparison stops at the same pair. So both ways
round the answer is the same, or there is none (`Term.convertible_comm`). Which fault is met first
may differ.
-/

namespace IndexedLambda

/-- Both computations give one answer, or neither gives any. -/
inductive Agree {α : Type} : Except Fault α → Except Fault α → Prop
  | ok (a : α) : Agree (.ok a) (.ok a)
  | error (f g : Fault) : Agree (.error f) (.error g)

namespace Agree

variable {α β γ : Type}

theorem refl (x : Except Fault α) : Agree x x := by
  rcases x with f | a
  · exact .error f f
  · exact .ok a

theorem bind {x y : Except Fault α} {f g : α → Except Fault β} (hxy : Agree x y)
    (hfg : ∀ a, Agree (f a) (g a)) : Agree (x >>= f) (y >>= g) := by
  rcases hxy with a | ⟨e, e'⟩
  · exact hfg a
  · exact .error e e'

/-- Two computations that are both needed may be run in either order. -/
theorem exchange (x : Except Fault α) (y : Except Fault β) {f : α → β → Except Fault γ}
    {g : β → α → Except Fault γ} (hfg : ∀ a b, Agree (f a b) (g b a)) :
    Agree (do let a ← x; let b ← y; f a b) (do let b ← y; let a ← x; g b a) := by
  rcases x with e | a
  · rcases y with e' | b
    · exact .error e e'
    · exact .error e e
  · rcases y with e' | b
    · exact .error e' e'
    · exact hfg a b

/-- A second comparison is made if the first one holds. -/
theorem both {x y x' y' : Except Fault Bool} (hx : Agree x x') (hy : Agree y y') :
    Agree (do if ← x then y else return false) (do if ← x' then y' else return false) := by
  refine hx.bind fun same => ?_
  cases same with
  | true => exact hy
  | false => exact .ok false

end Agree

namespace Term

variable {natives : InstructionSet}

theorem allPaired_comm {α : Type} {compare : α → α → Except Fault Bool}
    (h : ∀ a b, Agree (compare a b) (compare b a)) (as bs : List α) :
    Agree (allPaired compare as bs) (allPaired compare bs as) := by
  have hpairs : ∀ as bs : List α, Agree (allPairs compare as bs) (allPairs compare bs as) := by
    intro as
    induction as with
    | nil => intro bs; cases bs <;> exact .refl _
    | cons a as ih =>
        intro bs
        cases bs with
        | nil => exact .refl _
        | cons b bs => exact .both (h a b) (ih bs)
  unfold allPaired
  by_cases hlength : as.length = bs.length
  · rw [if_pos hlength, if_pos hlength.symm]
    exact hpairs as bs
  · rw [if_neg hlength, if_neg (Ne.symm hlength)]
    exact .ok false

/-- Exchanging the two terms changes no answer. -/
theorem convertible_comm (n : Nat) (t u : Term) :
    Agree (convertible natives n t u) (convertible natives n u t) := by
  induction n generalizing t u with
  | zero => exact .refl _
  | succ n ih =>
      rw [convertible, convertible]
      refine .exchange _ _ fun t' u' => ?_
      -- different forms are told apart by strict equality, whichever comes first
      have hstrict : Agree (.ok (decide (t'.StrictEq u'))) (.ok (decide (u'.StrictEq t'))) := by
        rw [decide_eq_decide.mpr ⟨StrictEq.symm, StrictEq.symm⟩]
        exact .refl _
      cases t' with
      | var v => cases u' <;> exact hstrict
      | const c => cases u' <;> exact hstrict
      | abs vs b =>
          cases u' with
          | abs ws c => exact .exchange _ _ fun left right => ih left right
          | _ => exact hstrict
      | app l r =>
          cases u' with
          | app l' r' => exact .both (ih l l') (ih r r')
          | _ => exact hstrict
      | list ts =>
          cases u' with
          | list us => exact allPaired_comm ih ts us
          | _ => exact hstrict
      | instr head ts =>
          cases u' with
          | instr head' us =>
              by_cases hhead : head.erased = head'.erased
              · simp only [hhead, if_true]
                exact allPaired_comm ih ts us
              · simp only [if_neg hhead, if_neg (Ne.symm hhead)]
                exact .ok false
          | _ => exact hstrict
      | define form x a b =>
          cases u' with
          | define form' y a' b' =>
              by_cases hname : x = y
              · simp only [hname, ne_eq, not_true, if_false]
                exact .both (ih a a') (ih b b')
              · simp only [ne_eq, hname, Ne.symm hname, not_false_iff, if_true]
                exact .ok false
          | _ => exact hstrict
      | recur defs b =>
          cases u' with
          | recur defs' b' =>
              refine .both (allPaired_comm (fun d e => ?_) defs defs') (ih b b')
              by_cases hname : d.1 = e.1
              · rw [if_pos hname, if_pos hname.symm]
                exact ih d.2 e.2
              · rw [if_neg hname, if_neg (Ne.symm hname)]
                exact .ok false
          | _ => exact hstrict

end Term

end IndexedLambda
