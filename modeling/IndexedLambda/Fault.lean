/-!
# Faults: the ways an operation breaks its contract

Depths, thresholds and arities are 64-bit words, and fresh-variable counters are 32-bit words.
They are kept as natural numbers together with an explicit bound, so an operation that would leave
the range reports `Fault.overflow` and never wraps. Every other constructor names one broken
precondition and carries what its text shows. `Fault.message` is the only place with wording.

`Fault.outOfFuel` is not a breach of contract: it is the answer of a bounded evaluation that was
stopped before it finished. It is kept apart so that handlers which recover from faults can let it
pass through.
-/

namespace IndexedLambda

/-- Why an operation gave no result. -/
inductive Fault where
  /-- A word would have left its range. -/
  | overflow
  /-- A shift would have moved a free occurrence to depth zero or past the last depth. -/
  | leavesFreeRange (depth threshold : Nat) (delta : Int)
  /-- An abstraction without binders. -/
  | noBinders
  /-- A recursive block without definitions. -/
  | noDefinitions
  /-- An instruction was handed more arguments than its arity. -/
  | tooManyArguments (instruction : String) (arity received : Nat)
  /-- An instruction without an action was called. -/
  | noAction (instruction : String)
  /-- A native action failed, with a text of its own or without one. -/
  | raised (text : Option String)
  /-- An enclosing type constant whose split is no boundary of its name. -/
  | invalidSplit (name : String) (position : Nat)
  /-- A name was to be cut at a byte where no character ends. -/
  | noBoundary (name : String) (position : Nat)
  /-- A dependent type without kind binders. -/
  | noKindBinders
  /-- A simultaneous substitution with unequal numbers of variables and types. -/
  | unequalLengths (vars types : Nat)
  /-- A polytype was specialised with more types than it has binders. -/
  | tooManyTypes (binders types : Nat)
  /-- Two types that are not variables were to be put into one class. -/
  | rigidUnion (left right : String)
  /-- A report of a step that did not fail. -/
  | passingReport
  /-- A failed conclusion without a failing status. -/
  | passingConclusion
  /-- A bounded evaluation stopped before it finished. -/
  | outOfFuel
  deriving DecidableEq

/-- The text of a fault. -/
def Fault.message : Fault → String
  | .overflow => "attempt to add with overflow"
  | .leavesFreeRange depth threshold delta =>
    s!"de Bruijn depth {depth} shifted by {delta} above {threshold} leaves the free range"
  | .noBinders => "an abstraction needs at least one binder"
  | .noDefinitions => "a rec needs at least one definition"
  | .tooManyArguments instruction arity received =>
    s!"instruction {instruction} takes {arity} arguments, got {received}"
  | .noAction instruction => s!"instruction {instruction} has no action"
  | .raised (some text) => text
  | .raised none => "instruction panicked"
  | .invalidSplit name position =>
    s!"cannot split enclosing constant `{name}` at {position}"
  | .noBoundary name position => s!"byte index {position} is not a char boundary of `{name}`"
  | .noKindBinders => "a dependent type needs at least one kind binder"
  | .unequalLengths vars types =>
    "assertion `left == right` failed: replace_all needs one type per variable\n" ++
      s!"  left: {vars}\n right: {types}"
  | .tooManyTypes binders types => s!"cannot specialize {binders} binders with {types} types"
  | .rigidUnion left right => s!"cannot union two non-variable types `{left}` and `{right}`"
  | .passingReport => "a report needs a failing status"
  | .passingConclusion => "a failed conclusion needs a failing status"
  | .outOfFuel => "evaluation ran out of fuel"

/-- A computation that does not touch the state it runs in. -/
def ofExcept {σ α : Type} : Except Fault α → EStateM Fault σ α
  | .ok a => return a
  | .error f => throw f

/-- Number of values of a depth, a threshold, an arity or a rule number: two to the power 64. -/
def wordRange : Nat := 18446744073709551616

/-- Number of values of a fresh-variable counter: two to the power 32. -/
def counterRange : Nat := 4294967296

/-- Sum of two words, refused when it is not a word. -/
def addWord (a b : Nat) : Except Fault Nat :=
  if a + b < wordRange then .ok (a + b) else .error .overflow

/-- The next value of a counter, refused at the last one. -/
def nextCount (n : Nat) : Except Fault Nat :=
  if n + 1 < counterRange then .ok (n + 1) else .error .overflow

end IndexedLambda
