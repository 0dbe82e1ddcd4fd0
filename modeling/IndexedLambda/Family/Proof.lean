import IndexedLambda.Inference.Rule
/-!
# Families of proofs
-/

namespace IndexedLambda.Family

variable (ev : Evaluator)

/-- Runs a rule for its judgment, and stops if it has none. -/
def proved (rule : InferM Conclusion) : OptionT InferM Judgment := do
  let conclusion ← rule
  match conclusion.judgment? with
  | some j => return j
  | none => failure

/-- Proves and opens `let id<i> = λ y . y`. -/
def openIdentity (i : Nat) : OptionT InferM OpenLet := do
  let premise ← Inference.abs "y"
  let y ← proved (Inference.var "y")
  let identity ← proved (Inference.dischargeAbs premise y)
  Inference.letIn s!"id{i}" identity

/-- `n` nested definitions of an identity. The innermost body applies each of them, the outermost
first, to `0`, which has type `Int`. -/
def letTower (n : Nat) : OptionT InferM Judgment := do
  Inference.add "0" (.mono (.plain "Int"))
  let premises ← (List.range n).mapM openIdentity
  let zero ← proved (Inference.var "0")
  let body ← (List.range n).foldlM (fun body i => do
    let identity ← proved (Inference.var s!"id{i}")
    proved (Inference.app ev identity body)) zero
  premises.reverse.foldlM (fun body premise => proved (Inference.dischargeLet premise body)) body

end IndexedLambda.Family
