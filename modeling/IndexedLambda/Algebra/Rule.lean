import IndexedLambda.Algebra.Operation
/-!
# The rule table

A rule pops its operands from the stack and gives one type, which is pushed when the rule succeeds.
Rules are found by number or by name. The table starts with eleven built-in rules and only ever
grows; a name is registered once.
-/

namespace IndexedLambda

/-- A rule of the type algebra. -/
abbrev Rule := AlgebraM Ty

namespace Rule

variable (ev : Evaluator)

/-- A rule on the two topmost monotypes. The function gets the deeper one first. -/
def binary (f : Monotype → Monotype → AlgebraM Monotype) : Rule := do
  match ← Stack.popMonotypes 2 with
  | [b, a] => return .mono (← f a b)
  | tops => throw (.error (.stackUnderflow 2 tops.length))

/-- A rule on the topmost monotype. -/
def unary (f : Monotype → AlgebraM Monotype) : Rule := do
  let m ← Stack.popMonotype
  return .mono (← f m)

def application : Rule := binary (Algebra.applyTypes ev)

def abstraction : Rule := unary Algebra.abstractType

def construction : Rule := binary fun a b => return .pair a b

def headSeparation : Rule := unary (Algebra.head ev)

def tailSeparation : Rule := unary (Algebra.tail ev)

def disjunction : Rule := unary Algebra.disjoin

def expansion : Rule := binary fun a b => return .union a b

def realization : Rule := do
  match ← Stack.popMonotypes 3 with
  | [c, b, a] => return .mono (← Algebra.realize ev a b c)
  | tops => throw (.error (.stackUnderflow 3 tops.length))

def contextualization : Rule := do
  match ← Stack.popAsPolytypes 2 with
  | [q, p] => return Algebra.contextualize p q
  | tops => throw (.error (.stackUnderflow 2 tops.length))

/-- Instantiates the polytype below the topmost monotype. If there is none, the monotype goes
back. After a fault it does not. -/
def instantiation : Rule := do
  let m ← Stack.popMonotype
  let p ← tryCatch Stack.popPolytype fun
    | .error e => do
      Stack.push (.mono m)
      throw (.error e)
    | .fault f => throw (.fault f)
  return p.instantiate m

def generalization : Rule := do return .poly (← Stack.pop).generalize

end Rule

/-- Rules with their names, in the order of their numbers. -/
structure RuleTable where
  rules : List (String × Rule)

namespace RuleTable

/-- The built-in rules. -/
def builtin (ev : Evaluator) : RuleTable where
  rules :=
    [("application", Rule.application ev),
      ("abstraction", Rule.abstraction),
      ("construction", Rule.construction),
      ("head-separation", Rule.headSeparation ev),
      ("tail-separation", Rule.tailSeparation ev),
      ("disjunction", Rule.disjunction),
      ("expansion", Rule.expansion),
      ("realization", Rule.realization ev),
      ("contextualization", Rule.contextualization),
      ("instantiation", Rule.instantiation),
      ("generalization", Rule.generalization)]

/-- The number of the rule with the given name. -/
def idOf? (table : RuleTable) (name : String) : Option Nat :=
  table.rules.findIdx? (·.1 = name)

/-- The name of the rule with the given number. -/
def nameOf? (table : RuleTable) (id : Nat) : Option String := (table.rules[id]?).map (·.1)

/-- Adds a rule under a new name and gives its number. -/
def register (name : String) (rule : Rule) : EStateM AlgebraError RuleTable Nat := do
  let table ← get
  match table.idOf? name with
  | some _ => throw (.ruleAlreadyRegistered name)
  | none =>
    set ({ rules := table.rules ++ [(name, rule)] } : RuleTable)
    return table.rules.length

/-- Runs a rule and pushes its result. -/
def apply (table : RuleTable) (id : Nat) : AlgebraM Unit := do
  match table.rules[id]? with
  | some (_, rule) => Stack.push (← rule)
  | none => throw (.error (.unknownRule id))

/-- Runs the rule with the given name and pushes its result. -/
def applyNamed (table : RuleTable) (name : String) : AlgebraM Unit := do
  match table.idOf? name with
  | some id => table.apply id
  | none => throw (.error (.unknownRuleName name))

/-- How a rule number is written. -/
def renderId (id : Nat) : String := s!"rule#{id}"

end RuleTable

end IndexedLambda
