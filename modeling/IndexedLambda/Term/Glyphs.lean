import IndexedLambda.Term.Basic
import IndexedLambda.Text.Quoted
/-!
# Writing terms

`Glyphs` holds the signs between the parts of a written term and `Term.render` writes a term with
them. The strict form shows the depth of every variable and binder in brackets; the ordinary form
leaves depths out. Arguments that an instruction still waits for are written `_`.
-/

namespace IndexedLambda

/-- The signs of a written term. -/
structure Glyphs where
  binder : String
  arrow : String
  apply : String
  listOpen : String
  listClose : String
  listSep : String
  letHead : String
  letIn : String
  whereIn : String
  recHead : String
  recAnd : String
  groupOpen : String
  groupClose : String
  deriving DecidableEq

/-- The usual signs. -/
def Glyphs.standard : Glyphs where
  binder := "λ"
  arrow := " . "
  apply := " "
  listOpen := "["
  listClose := "]"
  listSep := ", "
  letHead := "let "
  letIn := " in "
  whereIn := " where "
  recHead := "rec "
  recAnd := " and "
  groupOpen := "("
  groupClose := ")"

/-- The signs in order. -/
def Glyphs.toList (g : Glyphs) : List String :=
  [g.binder, g.arrow, g.apply, g.listOpen, g.listClose, g.listSep, g.letHead, g.letIn, g.whereIn,
    g.recHead, g.recAnd, g.groupOpen, g.groupClose]

/-- The given signs in order; the usual ones in the place of those that are missing. -/
def Glyphs.ofList (given : List (Option String)) : Glyphs :=
  let pick (i : Nat) (usual : String) : String := (given[i]?.join).getD usual
  let s := standard
  ⟨pick 0 s.binder, pick 1 s.arrow, pick 2 s.apply, pick 3 s.listOpen, pick 4 s.listClose,
    pick 5 s.listSep, pick 6 s.letHead, pick 7 s.letIn, pick 8 s.whereIn, pick 9 s.recHead,
    pick 10 s.recAnd, pick 11 s.groupOpen, pick 12 s.groupClose⟩

/-- A variable or binder, with its depth in the strict form. -/
def Variable.render (strict : Bool) (v : Variable) : String :=
  if strict then s!"{v.name}[{v.depth}]" else v.name

/-- A description of an instruction head: name, arity, and whether it has an action. -/
def InstructionHead.describe (head : InstructionHead) : String :=
  "InstructionHead \x7b name: " ++ Text.quoted head.name ++
    s!", arity: {head.arity}, has_action: {head.native}" ++ " \x7d"

namespace Term

variable (g : Glyphs) (strict : Bool)

mutual
/-- Writes a term. -/
def render : Term → String
  | .var v => v.render strict
  | .const c => c
  | .abs binders body =>
    g.groupOpen ++ g.binder ++ " ".intercalate (binders.map (·.render strict)) ++ g.arrow ++
      body.render ++ g.groupClose
  | .app l r => g.groupOpen ++ l.render ++ g.apply ++ r.render ++ g.groupClose
  | .list elems => g.listOpen ++ g.listSep.intercalate (renderList elems) ++ g.listClose
  | .instr head args =>
    let missing := List.replicate (head.arity - args.length) "_"
    "instruction[" ++ " ".intercalate (head.name :: (renderList args ++ missing)) ++ "]"
  | .define .letIn x a b =>
    g.groupOpen ++ g.letHead ++ x ++ " = " ++ a.render ++ g.letIn ++ b.render ++ g.groupClose
  | .define .whereIn x a b =>
    g.groupOpen ++ b.render ++ g.whereIn ++ x ++ " = " ++ a.render ++ g.groupClose
  | .recur defs b =>
    g.groupOpen ++ g.recHead ++ g.recAnd.intercalate (renderDefs defs) ++ g.letIn ++ b.render ++
      g.groupClose
/-- Writes every element. -/
def renderList : List Term → List String
  | [] => []
  | t :: ts => t.render :: renderList ts
/-- Writes every definition. -/
def renderDefs : List (String × Term) → List String
  | [] => []
  | (x, t) :: defs => (x ++ " = " ++ t.render) :: renderDefs defs
end

/-- The ordinary form. -/
def display (t : Term) : String := t.render .standard false

/-- The form that shows depths. -/
def strictDisplay (t : Term) : String := t.render .standard true

end Term

end IndexedLambda
