import IndexedLambda.Evaluation.Action
import IndexedLambda.Term.Combinator
import IndexedLambda.Term.Glyphs
/-!
# Stock instructions

A set of native instructions: strict equality, projections, list operations, counters, and a few
that fail on purpose or only look at their arguments. `Stock.action` gives each of them and
`Stock.natives` is the instruction set they form.
-/

namespace IndexedLambda

/-- The value of a decimal numeral that fits a counter. A leading plus sign and leading zeros are
allowed. -/
def counter? (text : String) : Option Nat :=
  let digits := match text.toList with
    | '+' :: rest => rest
    | chars => chars
  if digits.isEmpty || !digits.all Char.isDigit then none
  else
    let n := digits.foldl (fun n c => n * 10 + (c.toNat - '0'.toNat)) 0
    if n < counterRange then some n else none

/-- The stock instructions. -/
inductive Stock where
  | strictEquality | fail | boom | boomText | boomAny | unit | first | second | at0 | missing
  | count | raw | forceSecond | head | tail | cons | succ | pred | isZero
  deriving DecidableEq

namespace Stock

def all : List Stock :=
  [strictEquality, fail, boom, boomText, boomAny, unit, first, second, at0, missing, count, raw,
    forceSecond, head, tail, cons, succ, pred, isZero]

def name : Stock → String
  | strictEquality => "strictEquality"
  | fail => "fail"
  | boom => "boom"
  | boomText => "boomText"
  | boomAny => "boomAny"
  | unit => "unit"
  | first => "first"
  | second => "second"
  | at0 => "at0"
  | missing => "missing"
  | count => "count"
  | raw => "raw"
  | forceSecond => "forceSecond"
  | head => "head"
  | tail => "tail"
  | cons => "cons"
  | succ => "succ"
  | pred => "pred"
  | isZero => "isZero"

def arity : Stock → Nat
  | boom | boomAny | unit => 0
  | fail | boomText | at0 | missing | head | tail | succ | pred | isZero => 1
  | strictEquality | first | second | raw | forceSecond | cons => 2
  | count => 3

/-- The instruction of the given name. -/
def ofName? (name : String) : Option Stock := all.find? (·.name = name)

/-- The native head of a stock instruction. -/
def nativeHead (s : Stock) : InstructionHead := ⟨s.name, s.arity, some s.name⟩

/-- Fails with a text that says who failed, why, and on what. -/
def refuse (who why : String) (on : Term) : Action := .fail (some s!"{who}: {why}: {on.display}")

/-- Goes on with the elements of a list. -/
def withList (who : String) (t : Term) (next : List Term → Action) : Action :=
  match t with
  | .list elems => next elems
  | _ => refuse who "not a list" t

/-- Goes on with the number that a constant stands for. -/
def withNumber (who : String) (t : Term) (next : Nat → Action) : Action :=
  match t with
  | .const c => ((counter? c).map next).getD (refuse who "not a number" t)
  | _ => refuse who "not a number" t

/-- The constant that stands for a number. -/
def numeral (n : Nat) : Term := .const (toString n)

/-- What a stock instruction does with the arguments it received. Successor and predecessor stay
within the range of a counter. -/
def action (s : Stock) (args : List Term) : Action :=
  match s with
  | strictEquality =>
    .argument args 0 fun lhs args => .argument args 1 fun rhs _ =>
      .answer (Combinator.ofBool (lhs.StrictEq rhs))
  | fail => .fail (some "fail: bad input")
  | boom => .fail (some "kaboom")
  | boomText => .argument args 0 fun t _ => .fail (some ("boom " ++ t.display))
  | boomAny => .fail none
  | unit => .answer (.const s!"unit:{args.isEmpty}")
  | first => .argument args 0 fun t _ => .answer t
  | second => .argumentAt args 2 fun t _ => .answer t
  | at0 => .argumentAt args 0 fun t _ => .answer t
  | missing => .argument args 5 fun t _ => .answer t
  | count => .answer (numeral args.length)
  | raw => .answer (.list args)
  | forceSecond => .argument args 1 fun _ args => .answer (.list args)
  | head =>
    .argument args 0 fun t _ => withList "head" t fun
      | [] => .fail (some "head: empty")
      | e :: _ => .force e .answer
  | tail => .argument args 0 fun t _ => withList "tail" t fun elems => .answer (.tailElements elems)
  | cons =>
    .argument args 1 fun t args => withList "cons" t fun elems =>
      .answer (.list (args.take 1 ++ elems))
  | succ =>
    .argument args 0 fun t _ => withNumber "succ" t fun n =>
      .answer (numeral (min (n + 1) (counterRange - 1)))
  | pred => .argument args 0 fun t _ => withNumber "pred" t fun n => .answer (numeral (n - 1))
  | isZero =>
    .argument args 0 fun t _ => withNumber "isZero" t fun n =>
      .answer (Combinator.ofBool (n == 0))

/-- The instruction set formed by the stock instructions. A head of another name fails. -/
def natives : InstructionSet := fun head args =>
  match ofName? head.name with
  | some s => s.action args
  | none => .fail none

end Stock

end IndexedLambda
