import IndexedLambda.Fault
import IndexedLambda.Judgment
import IndexedLambda.Status
/-!
# Conclusions and reports

An inference rule ends with a conclusion: a judgment, or a failing status. A failure is also
reported, with the premises the rule was given or the term that has no judgment, and a report can be
read as a diagnostic.
-/

namespace IndexedLambda

/-- Why an inference rule failed. -/
structure Report where
  rule : String
  status : Status
  judgments : List Judgment
  /-- The offending term, when there is no judgment for it. -/
  subject : Option Term

namespace Report

/-- A report about the given premises. It needs a failing status. -/
def ofPremises (rule : String) (status : Status) (judgments : List Judgment) :
    Except Fault Report :=
  if status = .ok then .error .passingReport else .ok ⟨rule, status, judgments, none⟩

/-- A report that a name has no judgment in scope. -/
def missingName (rule : String) (name : Term) : Report := ⟨rule, .nameNotInContext, [], some name⟩

def category (r : Report) : Category := r.status.category

/-- The message of a report. -/
def message (r : Report) : String :=
  match r.subject, r.status with
  | some name, .nameNotInContext => s!"`{name.display}` is not in the context"
  | some subject, status => s!"{status.name} at `{subject.display}`"
  | none, status => s!"{status.summary} during {r.rule}"

/-- The report as a diagnostic: its premises are notes. -/
def diagnostic (r : Report) : Except Fault Diagnostic := do
  let notes ← r.judgments.mapM (·.render)
  return { Diagnostic.error r.category r.message with
    rule := some r.rule
    notes := notes
    help := some r.category.fix }

/-- Writes a report: rule, status and subject, then one line for each premise. -/
def render (r : Report) : Except Fault String := do
  let premises ← r.judgments.mapM (·.render)
  return "[" ++ r.rule ++ "] " ++ r.status.name ++ ((r.subject.map (": " ++ ·.display)).getD "") ++
    String.join (premises.map ("\n  " ++ ·))

end Report

/-- The end of an inference rule. -/
inductive Conclusion where
  | concluded (j : Judgment)
  | failed (status : Status)

namespace Conclusion

/-- A failed conclusion, which needs a failing status. -/
def ofFailure (status : Status) : Except Fault Conclusion :=
  if status = .ok then .error .passingConclusion else .ok (.failed status)

def status : Conclusion → Status
  | concluded _ => .ok
  | failed status => status

def judgment? : Conclusion → Option Judgment
  | concluded j => some j
  | failed _ => none

/-- Writes a conclusion. A failed one proves nothing of nothing. -/
def render : Conclusion → Except Fault String
  | concluded j => j.render
  | failed _ => .ok "_: ⊥"

end Conclusion

end IndexedLambda
