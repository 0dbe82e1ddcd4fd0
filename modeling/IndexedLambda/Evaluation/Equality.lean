import IndexedLambda.Evaluation.Reduction
/-!
# Computational equality

Two terms are compared after both have been forced. Abstractions are compared extensionally: each is
applied to a placeholder until no abstraction is left, and the results are compared. Applications,
lists, instructions and local definitions are compared part by part, from left to right and up to
the first difference; the form of a single local definition does not count.
-/

namespace IndexedLambda

/-- The variable that stands for any argument. -/
def Variable.placeholder : Variable := .unassigned "_"

namespace Term

variable (natives : InstructionSet)

/-- Whether a comparison holds for all pairs of two lists of one length. -/
def allPairs {α : Type} (compare : α → α → Except Fault Bool) :
    List α → List α → Except Fault Bool
  | [], [] => .ok true
  | a :: as, b :: bs => do if ← compare a b then allPairs compare as bs else return false
  | _, _ => .ok false

/-- Lists of unequal length differ without any of their parts being compared. -/
def allPaired {α : Type} (compare : α → α → Except Fault Bool) (as bs : List α) :
    Except Fault Bool :=
  if as.length = bs.length then allPairs compare as bs else .ok false

/-- Computational equality. -/
def convertible : Nat → Term → Term → Except Fault Bool
  | 0, _, _ => .error .outOfFuel
  | n + 1, t, u => do
    match ← t.force natives n, ← u.force natives n with
    | .abs vs b, .abs ws c =>
      let left ← saturate natives .placeholder n vs b
      let right ← saturate natives .placeholder n ws c
      convertible n left right
    | .app l r, .app l' r' => do
      if ← convertible n l l' then convertible n r r' else return false
    | .list ts, .list us => allPaired (convertible n) ts us
    | .instr h ts, .instr k us =>
      if h.erased = k.erased then allPaired (convertible n) ts us else return false
    | .define _ x a b, .define _ y a' b' =>
      if x ≠ y then return false
      if ← convertible n a a' then convertible n b b' else return false
    | .recur ds b, .recur es c =>
      let same ← allPaired (fun d e => if d.1 = e.1 then convertible n d.2 e.2 else .ok false) ds es
      if same then convertible n b c else return false
    | t', u' => return t'.StrictEq u'

end Term

end IndexedLambda
