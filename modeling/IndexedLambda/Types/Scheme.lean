import IndexedLambda.NameTable
import IndexedLambda.Types.Monotype
/-!
# Dependent types, polytypes and types

A dependent type is an application that waits for terms to index it. A polytype quantifies type
variables over a body, which is a monotype or a dependent type and never a polytype. A type is a bare
body or a polytype; a polytype without binders is still told apart from its bare body.

Two polytypes are equal when they differ only in the names of their binders: `Polytype.alphaEq`
replaces the binders of both by the same placeholders, which neither body mentions. Index terms are
compared strictly.
-/

namespace IndexedLambda

/-! ## Dependent types -/

/-- `mapval (n: K) .. . (F x)`: an application that waits for at least one index. The indices it
has got already come first in the finished index. -/
structure DependentType where
  first : Variable × Monotype
  rest : List (Variable × Monotype)
  head : TypeConstant
  params : List Monotype
  index : List (Term × Monotype)
  deriving DecidableEq

/-- What a polytype can quantify over. -/
inductive Body where
  | mono (m : Monotype)
  | dependent (d : DependentType)
  deriving DecidableEq

namespace DependentType

/-- A dependent type over the given kind binders, of which it needs one. -/
def ofBinders (binders : List (Variable × Monotype)) (head : TypeConstant)
    (params : List Monotype) : Except Fault DependentType :=
  match binders with
  | [] => .error .noKindBinders
  | first :: rest => .ok ⟨first, rest, head, params, []⟩

def binders (d : DependentType) : List (Variable × Monotype) := d.first :: d.rest

/-- Indexes the first binder by a term. With the last binder the result is an instance. -/
def instantiate (d : DependentType) (t : Term) : Body :=
  match d.rest with
  | [] => .mono (.inst d.head d.params (d.index ++ [(t, d.first.2)]))
  | next :: rest =>
    .dependent { d with first := next, rest := rest, index := d.index ++ [(t, d.first.2)] }

/-- The instance whose remaining indices are the given terms, one for each binder. -/
def indexedBy (d : DependentType) (terms : List Term) : Monotype :=
  .inst d.head d.params (d.index ++ terms.zip (d.binders.map (·.2)))

/-- Indexes every remaining binder by its own variable. -/
def indexedBySelf (d : DependentType) : Monotype :=
  d.indexedBy (d.binders.map fun b => .var b.1)

/-- Indexes every remaining binder by a fresh term variable. -/
def indexedByFresh (d : DependentType) : EStateM Fault NameTable Monotype := do
  return d.indexedBy (← d.binders.mapM fun _ => do return .var (← NameTable.freshVar))

/-- Free variables in the order of their first occurrence: kinds of the binders, then parameters,
then kinds of the index. -/
def occurrences (d : DependentType) : List TypeVariable :=
  Monotype.occurrencesList (d.binders.map (·.2)) ++ Monotype.occurrencesList d.params ++
    Monotype.occurrencesIndex d.index

def subst (σ : TypeVariable → Monotype) (d : DependentType) : DependentType where
  first := (d.first.1, d.first.2.subst σ)
  rest := d.rest.map fun b => (b.1, b.2.subst σ)
  head := d.head
  params := Monotype.substList σ d.params
  index := Monotype.substIndex σ d.index

/-- The type as strict equality sees it. -/
def erased (d : DependentType) : DependentType where
  first := (d.first.1, d.first.2.erased)
  rest := d.rest.map fun b => (b.1, b.2.erased)
  head := d.head
  params := Monotype.mapIndexList .erased d.params
  index := Monotype.mapIndexKinds .erased d.index

end DependentType

/-! ## Bodies -/

/-- Cuts off the longest end of an index that consists of variables. -/
def trailingVariables :
    List (Term × Monotype) → List (Term × Monotype) × List (Variable × Monotype)
  | [] => ([], [])
  | (t, k) :: index =>
    match trailingVariables index, t with
    | ([], binders), .var v => ([], (v, k) :: binders)
    | (kept, binders), t => ((t, k) :: kept, binders)

namespace Body

/-- Turns the variables at the end of an index back into binders: `(Array a; n)` with `n: Uint`
becomes `mapval (n: Uint) . (Array a)`. With no variable at the end the instance stays. -/
def generalizeIndex (head : TypeConstant) (params : List Monotype)
    (index : List (Term × Monotype)) : Body :=
  match trailingVariables index with
  | (_, []) => .mono (.inst head params index)
  | (kept, first :: rest) => .dependent ⟨first, rest, head, params, kept⟩

def freeVariables : Body → List TypeVariable
  | .mono m => m.freeVariables
  | .dependent d => d.occurrences.eraseDups

def subst (σ : TypeVariable → Monotype) : Body → Body
  | .mono m => .mono (m.subst σ)
  | .dependent d => .dependent (d.subst σ)

/-- The body as strict equality sees it. -/
def erased : Body → Body
  | .mono m => .mono m.erased
  | .dependent d => .dependent d.erased

/-- Strict equality: index terms are compared strictly, all the rest literally. -/
def StrictEq (b c : Body) : Prop := b.erased = c.erased

instance (b c : Body) : Decidable (b.StrictEq c) := inferInstanceAs (Decidable (_ = _))

/-- Substitutes a type for a binder, or nothing if the binder is `_`. -/
def instantiate (b : Body) (v : TypeVariable) (m : Monotype) : Body :=
  if v.isWildcard then b else b.subst (.single v m)

/-- The monotype of a body, in which a dependent type is indexed by its own variables. -/
def indexedBySelf : Body → Monotype
  | .mono m => m
  | .dependent d => d.indexedBySelf

/-- The monotype of a body, in which a dependent type is indexed by fresh variables. -/
def indexedByFresh : Body → EStateM Fault NameTable Monotype
  | .mono m => return m
  | .dependent d => d.indexedByFresh

/-- Simultaneous substitution of equally many types for variables. -/
def replaceAll (vars : List TypeVariable) (types : List Monotype) (b : Body) :
    Except Fault Body :=
  if vars.length = types.length then .ok (b.subst (.assign (vars.zip types)))
  else .error (.unequalLengths vars.length types.length)

end Body

/-! ## Polytypes -/

/-- `forall a b . T` -/
structure Polytype where
  binders : List TypeVariable
  body : Body

/-- A type: a bare body or a polytype. -/
inductive Ty where
  | bare (b : Body)
  | poly (p : Polytype)

/-- A monotype as a type. -/
def Ty.mono (m : Monotype) : Ty := .bare (.mono m)

/-- A dependent type as a type. -/
def Ty.dependent (d : DependentType) : Ty := .bare (.dependent d)

namespace Polytype

/-- Binds variables over a type. The binders of a polytype come after the new ones. -/
def quantify (binders : List TypeVariable) : Ty → Polytype
  | .bare b => ⟨binders, b⟩
  | .poly p => ⟨binders ++ p.binders, p.body⟩

/-- The type a polytype stands for: without binders, the bare body. -/
def toType (p : Polytype) : Ty := if p.binders.isEmpty then .bare p.body else .poly p

/-- Substitutes a type for the outermost binder, or nothing if the binder is `_`. After the last
binder the bare body is left. -/
def instantiate (p : Polytype) (m : Monotype) : Ty :=
  match p.binders with
  | [] => .bare p.body
  | v :: rest => toType ⟨rest, p.body.instantiate v m⟩

/-- Instantiates the leading binders with types, of which there may not be more than binders. -/
def specialize (p : Polytype) (types : List Monotype) : Except Fault Ty :=
  if types.length ≤ p.binders.length then
    .ok (types.foldl (fun ty m => match ty with
      | .poly q => q.instantiate m
      | .bare b => .bare b) (.poly p))
  else .error (.tooManyTypes p.binders.length types.length)

/-- The free variables of the body that are not bound. -/
def freeVariables (p : Polytype) : List TypeVariable :=
  p.body.freeVariables.filter fun v => !p.binders.contains v

/-- How many underscores the name starts with. -/
def leadingUnderscores (name : String) : Nat := (name.toList.takeWhile (· = '_')).length

/-- Placeholders that differ from each other and from every variable in `taken`: their names start
with more underscores than any name there. -/
def placeholders (taken : List TypeVariable) (count : Nat) : List Monotype :=
  let stem := String.ofList
    (List.replicate ((taken.map fun v => leadingUnderscores v.name).foldl max 0 + 1) '_')
  (List.range count).map fun i => .var ⟨stem ++ toString i, TypeVariable.noContext⟩

/-- Equality up to the names of the binders. -/
def alphaEq (p q : Polytype) : Bool :=
  p.binders.length == q.binders.length &&
    let shared := placeholders (p.body.freeVariables ++ q.body.freeVariables) p.binders.length
    (p.body.subst (.assign (p.binders.zip shared))).StrictEq
      (q.body.subst (.assign (q.binders.zip shared)))

instance : BEq Polytype := ⟨alphaEq⟩

end Polytype

/-! ## Types -/

namespace Ty

def asMonotype : Ty → Option Monotype
  | .bare (.mono m) => some m
  | _ => none

/-- Any type as a polytype, without binders unless it has some. -/
def toPolytype : Ty → Polytype
  | .bare b => ⟨[], b⟩
  | .poly p => p

/-- Binds `_` over a bare body. A polytype stays as it is. -/
def generalize : Ty → Polytype
  | .bare b => ⟨[.wildcard], b⟩
  | .poly p => p

/-- Substitutes one type for one variable. A polytype that binds the variable stays as it is. -/
def replace (v : TypeVariable) (m : Monotype) : Ty → Ty
  | .bare b => .bare (b.subst (.single v m))
  | .poly p =>
    if v ∈ p.binders then .poly p else .poly { p with body := p.body.subst (.single v m) }

/-- Simultaneous substitution. A polytype takes its binders out of it first, and pairs variables
with types as far as both go; a bare body needs equally many. -/
def replaceAll (vars : List TypeVariable) (types : List Monotype) : Ty → Except Fault Ty
  | .bare b => do return .bare (← b.replaceAll vars types)
  | .poly p =>
    let pairs := (vars.zip types).filter fun a => !p.binders.contains a.1
    .ok (.poly { p with body := p.body.subst (.assign pairs) })

def freeVariables : Ty → List TypeVariable
  | .bare b => b.freeVariables
  | .poly p => p.freeVariables

/-- Equality of types: strict for bare bodies, up to the names of binders for polytypes. -/
def beq : Ty → Ty → Bool
  | .bare b, .bare c => b.StrictEq c
  | .poly p, .poly q => p == q
  | _, _ => false

instance : BEq Ty := ⟨beq⟩

end Ty

end IndexedLambda
