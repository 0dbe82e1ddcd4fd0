import IndexedLambda.Term.Binding
import IndexedLambda.Term.Occurrence
/-!
# Substitution and contraction

`Term.replace` puts a term in the place of every occurrence of a variable. `Term.exposes` compares a
term with the result and says whether a redex has come up on its operator spine; a caller that
reduces keeps stepping while it has. `Term.contract` is one beta step of an abstraction on an
argument that is already in place, and `Term.etaReduce` is one eta step.
-/

namespace IndexedLambda.Term

/-- Puts `u` in the place of every occurrence of `v`. An abstraction on the way shifts both. -/
def replace (t : Term) (v : Variable) (u : Term) : Except Fault Term :=
  t.traverse
    (fun n (v, u) => do
      let v' ← v.shift (.up n)
      return (v', ← u.shift (.up n)))
    (fun (v, u) w => .ok (if w = v then u else .var w)) (v, u)

/-- Whether replacing variables in the first term, which gave the second, put something applicable
in operator position on its spine. What was inserted for a variable is not searched. -/
def exposes : Term → Term → Bool
  | .abs _ before, .abs _ after => exposes before after
  | .app before _, .app after _ => exposes before after || after.isApplicable
  | _, _ => false

/-- An abstraction over the remaining binders, or the bare body if none remain. -/
def wrap (binders : List Variable) (body : Term) : Term :=
  if binders.isEmpty then body else .abs binders body

/-- One beta step for the outermost binder. The flag says whether the body exposes a redex. -/
def contract (binders : List Variable) (body arg : Term) : Except Fault (Term × Bool) :=
  match binders with
  | [] => .error .noBinders
  | v :: rest => do
    let inserted ← body.replace v (← arg.shift (.up binders.length))
    let result ← inserted.shift ⟨binders.length, -1⟩
    return (wrap rest result, exposes body inserted)

/-- Collapses `λ x₁ .. xₖ . g xₖ` when `xₖ` does not occur in `g`. The binders that remain are
joined with those of `g` when `g` is an abstraction. Any other shape comes back unchanged. -/
def etaReduce (binders : List Variable) (body : Term) : Except Fault Term :=
  match body, binders.getLast? with
  | .app g (.var v), some innermost =>
    if v ≠ innermost then .ok (.abs binders body)
    else do
      if ← g.mentions innermost then return .abs binders body
      let outer := binders.dropLast.map (·.name)
      match ← g.shift ⟨1, -1⟩ with
      | .abs inner b => return .abs (numbered (outer ++ inner.map (·.name))) b
      | g' => return wrap (numbered outer) g'
  | _, _ => .ok (.abs binders body)

end IndexedLambda.Term
