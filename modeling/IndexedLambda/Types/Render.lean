import IndexedLambda.Term.Glyphs
import IndexedLambda.Types.Scheme
/-!
# Writing types

An application is written by the style of its head: in front of the parameters, between the first
parameter and the others, or around them. Index terms follow a semicolon, in their ordinary form.

A head that is written around its parameters has its name cut in two. `TypeConstant.enclosing` sees to it
that the cut falls between characters, but a constant need not be made that way. Writing an
application ends in a fault if the name of its head cannot be cut.
-/

namespace IndexedLambda

namespace TypeConstant

/-- A constant by itself. -/
def render (c : TypeConstant) : String :=
  match c.style with
  | .operator => "(" ++ c.name ++ ")"
  | .plain | .enclosing _ => c.name

/-- A constant with written parameters, without the outer grouping: `a -> b`, `Array a`. -/
def renderInner (c : TypeConstant) (params : List String) : String :=
  match c.style, params with
  | _, [] => c.render
  | .operator, [only] => c.render ++ " " ++ only
  | .operator, first :: others => first ++ " " ++ c.name ++ " " ++ " ".intercalate others
  | .enclosing _, params => " ".intercalate params
  | .plain, params => " ".intercalate (c.name :: params)

/-- The signs around an application. -/
def brackets (c : TypeConstant) : Except Fault (String × String) :=
  match c.style with
  | .enclosing splitAt =>
    match Text.splitAtByte splitAt c.name.toList with
    | some (before, after) => .ok (String.ofList before, String.ofList after)
    | none => .error (.noBoundary c.name splitAt)
  | _ => .ok ("(", ")")

/-- A constant with written parameters and written index terms. -/
def renderInst (c : TypeConstant) (params index : List String) : String :=
  let tail := if index.isEmpty then "" else "; " ++ " ".intercalate index
  "(" ++ c.renderInner params ++ tail ++ ")"

end TypeConstant

namespace Monotype

mutual
/-- Writes a monotype. An application without parameters is written as its head by itself. -/
def render : Monotype → Except Fault String
  | .var v => .ok v.name
  | .const c => .ok c.render
  | .app head params =>
    if params.isEmpty then .ok head.render
    else do
      let (opening, closing) ← head.brackets
      return opening ++ head.renderInner (← renderList params) ++ closing
  | .inst head params index => do
    return head.renderInst (← renderList params) (index.map fun j => j.1.display)
/-- Writes every element, from left to right. -/
def renderList : List Monotype → Except Fault (List String)
  | [] => .ok []
  | m :: ms => do return (← m.render) :: (← renderList ms)
end

end Monotype

/-- An index term with its kind. -/
def renderIndex (j : Term × Monotype) : Except Fault String := do
  return "(" ++ j.1.display ++ ": " ++ (← j.2.render) ++ ")"

def DependentType.render (d : DependentType) : Except Fault String := do
  let binders ← d.binders.mapM fun b => do
    return "(" ++ b.1.name ++ ": " ++ (← b.2.render) ++ ")"
  let instanced ← (if d.index.isEmpty then .app d.head d.params
    else .inst d.head d.params d.index : Monotype).render
  return "mapval " ++ " ".intercalate binders ++ " . " ++ instanced

def Body.render : Body → Except Fault String
  | .mono m => m.render
  | .dependent d => d.render

def Polytype.render (p : Polytype) : Except Fault String :=
  if p.binders.isEmpty then p.body.render
  else do
    return "forall " ++ " ".intercalate (p.binders.map (·.name)) ++ " . " ++ (← p.body.render)

def Ty.render : Ty → Except Fault String
  | .bare b => b.render
  | .poly p => p.render

end IndexedLambda
