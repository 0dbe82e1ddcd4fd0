/-!
# Diagnostics

What a failed rule or a failed operation says to its user: a category with a stable code, a message,
the rule that failed, the judgments involved and a suggestion. Nothing here decides whether a
diagnostic stops anything.
-/

namespace IndexedLambda

inductive Severity where
  | error | warning | info
  deriving DecidableEq

def Severity.name : Severity → String
  | error => "error"
  | warning => "warning"
  | info => "info"

/-- What kind of thing went wrong. -/
inductive Category where
  /-- Two type constructors at one position have different names. -/
  | constantMismatch
  /-- One type constructor has different numbers of parameters. -/
  | paramLengthMismatch
  /-- A type variable would have to contain itself. -/
  | occursCheck
  /-- A name has no judgment in scope. -/
  | undefinedName
  /-- Two index terms of a dependent type disagree. -/
  | kindMismatch
  /-- An algebra rule found the wrong kind of type on the stack. -/
  | stackMismatch
  /-- The number or name of an algebra rule is unknown or taken. -/
  | ruleRegistry
  deriving DecidableEq

namespace Category

def all : List Category :=
  [constantMismatch, paramLengthMismatch, occursCheck, undefinedName, kindMismatch, stackMismatch,
    ruleRegistry]

def name : Category → String
  | constantMismatch => "constant_mismatch"
  | paramLengthMismatch => "param_length_mismatch"
  | occursCheck => "occurs_check"
  | undefinedName => "undefined_name"
  | kindMismatch => "kind_mismatch"
  | stackMismatch => "stack_mismatch"
  | ruleRegistry => "rule_registry"

/-- The category of the given name. -/
def ofName? (name : String) : Option Category := all.find? (·.name = name)

/-- The stable code. -/
def code : Category → String
  | constantMismatch => "E0001"
  | paramLengthMismatch => "E0002"
  | occursCheck => "E0003"
  | undefinedName => "E0004"
  | kindMismatch => "E0005"
  | stackMismatch => "E0101"
  | ruleRegistry => "E0102"

def description : Category → String
  | constantMismatch => "Two types have different head constructors."
  | paramLengthMismatch => "A type constructor is applied to a different number of parameters."
  | occursCheck => "A type variable occurs inside the type it is bound to."
  | undefinedName => "A referenced name has no judgment in the context."
  | kindMismatch => "The expression indices of a dependent type disagree."
  | stackMismatch => "A type-algebra rule popped a type of the wrong shape."
  | ruleRegistry => "A type-algebra rule is missing or registered twice."

/-- What usually helps. -/
def fix : Category → String
  | constantMismatch => "Check the argument against the function's domain."
  | paramLengthMismatch => "Apply the constructor to the number of parameters it declares."
  | occursCheck => "Break the self-application or add an annotation."
  | undefinedName => "Bind the name with a let or lambda before using it."
  | kindMismatch => "Make the dependent indices agree, or use a variable index."
  | stackMismatch => "Push monotypes for monotype rules and polytypes for polytype rules."
  | ruleRegistry => "Register the rule once and dispatch by the id it returns."

end Category

structure Diagnostic where
  code : Option String
  severity : Severity
  category : Category
  message : String
  /-- The rule that failed. -/
  rule : Option String
  /-- Written judgments or types, in the order of the premises. -/
  notes : List String
  help : Option String
  deriving DecidableEq

namespace Diagnostic

/-- An error with the code of its category and nothing else. -/
def error (category : Category) (message : String) : Diagnostic :=
  ⟨some category.code, .error, category, message, none, [], none⟩

/-- The same as a warning. -/
def warning (category : Category) (message : String) : Diagnostic :=
  { error category message with severity := .warning }

/-- Writes a diagnostic: the message on the first line, then one line for each further part. -/
def render (d : Diagnostic) : String :=
  let code := match d.code with
    | some c => "[" ++ c ++ "]"
    | none => ""
  let line (label text : String) := "\n  " ++ label ++ ": " ++ text
  d.severity.name ++ code ++ ": " ++ d.message ++
    (d.rule.map (line "rule")).getD "" ++
    String.join (d.notes.map (line "note")) ++
    (d.help.map (line "help")).getD ""

/-- What a list of diagnostics shows: the first of them. -/
def renderFirst (ds : List Diagnostic) : String := (ds.head?.map render).getD ""

end Diagnostic

end IndexedLambda
