import IndexedLambda.Fault
/-!
# Terms

Terms of a lambda calculus with abstractions over several binders at once, constants, strict lists,
native instructions and named local definitions.

A variable occurrence carries a name and a depth. Depth `0` means that no binder has been assigned
yet; `1 .. k` are the `k` nearest enclosing binders, the innermost first; anything larger is free.
The name of a local definition is a constant and not a binder, so it takes no part in depths.

There are two equalities. For the literal one names, depths, forms and instruction heads all count;
`Term.beq` decides it, and `DecidableEq Term` is read off from it. Strict equality, `Term.StrictEq`,
is the one that the operations on terms ask for: it does not see which action an instruction has.
-/

namespace IndexedLambda

/-- A variable occurrence together with its binding depth. -/
structure Variable where
  name : String
  depth : Nat
  deriving DecidableEq

/-- An occurrence that no binder has been assigned to. -/
def Variable.unassigned (name : String) : Variable := ⟨name, 0⟩

def Variable.isUnassigned (v : Variable) : Bool := v.depth == 0

/-- How a single local definition is written. -/
inductive LetForm where
  /-- `let x = a in b` -/
  | letIn
  /-- `b where x = a` -/
  | whereIn
  deriving DecidableEq

/-- The head of an instruction: its name, its arity, and its native action if it has one. An action is
given by a label, and an instruction set says what it does. It is the head's own: two heads of one name
and arity may have different actions. -/
structure InstructionHead where
  name : String
  arity : Nat
  action : Option String
  deriving DecidableEq

/-- Whether the instruction has a native action. -/
def InstructionHead.native (head : InstructionHead) : Bool := head.action.isSome

/-- What strict equality sees of a head: its name, its arity and whether it has an action. -/
def InstructionHead.erased (head : InstructionHead) : InstructionHead :=
  { head with action := head.action.map fun _ => "" }

inductive Term where
  | var (v : Variable)
  /-- Simultaneous abstraction, outermost binder first. -/
  | abs (binders : List Variable) (body : Term)
  | app (operator operand : Term)
  | const (name : String)
  | list (elems : List Term)
  /-- An instruction with the arguments received so far. -/
  | instr (head : InstructionHead) (args : List Term)
  /-- One local definition over a body. -/
  | define (form : LetForm) (name : String) (assignment body : Term)
  /-- Mutually recursive local definitions over a body. -/
  | recur (defs : List (String × Term)) (body : Term)

namespace Term

instance : Inhabited Term := ⟨.const ""⟩

/-- The list of all elements but the first. -/
def tailElements (elems : List Term) : Term := .list elems.tail

/-- The list with one more element in front. -/
def consElement (e : Term) (elems : List Term) : Term := .list (e :: elems)

/-- The names that a recursive block defines. -/
def definedNames (defs : List (String × Term)) : List String := defs.map (·.1)

/-- Whether a recursive block defines a name. -/
def defines (defs : List (String × Term)) (name : String) : Bool := (definedNames defs).contains name

/-- Induction on a term with a hypothesis for every immediate subterm. -/
theorem induction_on {motive : Term → Prop}
    (var : ∀ v, motive (.var v))
    (abs : ∀ binders body, motive body → motive (.abs binders body))
    (app : ∀ l r, motive l → motive r → motive (.app l r))
    (const : ∀ c, motive (.const c))
    (list : ∀ elems, (∀ t ∈ elems, motive t) → motive (.list elems))
    (instr : ∀ head args, (∀ t ∈ args, motive t) → motive (.instr head args))
    (define : ∀ form name a b, motive a → motive b → motive (.define form name a b))
    (recur : ∀ defs b, (∀ d ∈ defs, motive d.2) → motive b → motive (.recur defs b))
    (t : Term) : motive t :=
  @Term.rec motive (fun ts => ∀ t ∈ ts, motive t) (fun ds => ∀ d ∈ ds, motive d.2)
    (fun d => motive d.2) var abs app const list instr define recur
    (fun _ h => nomatch h)
    (fun _ _ ht hts _ h => by
      rcases List.mem_cons.mp h with rfl | h
      · exact ht
      · exact hts _ h)
    (fun _ h => nomatch h)
    (fun _ _ hd hds _ h => by
      rcases List.mem_cons.mp h with rfl | h
      · exact hd
      · exact hds _ h)
    (fun _ _ h => h) t

/-! ## Literal equality -/

mutual
/-- Literal equality of two terms. -/
def beq : Term → Term → Bool
  | .var v, .var w => v == w
  | .abs vs b, .abs ws c => vs == ws && b.beq c
  | .app l r, .app l' r' => l.beq l' && r.beq r'
  | .const x, .const y => x == y
  | .list ts, .list us => beqList ts us
  | .instr h ts, .instr k us => h == k && beqList ts us
  | .define f x a b, .define g y c d => f == g && x == y && a.beq c && b.beq d
  | .recur ds b, .recur es c => beqDefs ds es && b.beq c
  | _, _ => false
/-- Literal equality of two lists of terms. -/
def beqList : List Term → List Term → Bool
  | [], [] => true
  | t :: ts, u :: us => t.beq u && beqList ts us
  | _, _ => false
/-- Literal equality of two lists of definitions. -/
def beqDefs : List (String × Term) → List (String × Term) → Bool
  | [], [] => true
  | (x, t) :: ds, (y, u) :: es => x == y && t.beq u && beqDefs ds es
  | _, _ => false
end

mutual
theorem beq_self : ∀ t : Term, t.beq t = true
  | .var _ | .const _ => by simp [beq]
  | .abs _ b => by simp [beq, beq_self b]
  | .app l r => by simp [beq, beq_self l, beq_self r]
  | .list ts | .instr _ ts => by simp [beq, beqList_self ts]
  | .define _ _ a b => by simp [beq, beq_self a, beq_self b]
  | .recur ds b => by simp [beq, beqDefs_self ds, beq_self b]
theorem beqList_self : ∀ ts : List Term, beqList ts ts = true
  | [] => rfl
  | t :: ts => by simp [beqList, beq_self t, beqList_self ts]
theorem beqDefs_self : ∀ ds : List (String × Term), beqDefs ds ds = true
  | [] => rfl
  | (_, t) :: ds => by simp [beqDefs, beq_self t, beqDefs_self ds]
end

mutual
theorem eq_of_beq : ∀ {t u : Term}, t.beq u = true → t = u
  | .var _, u, h => by cases u <;> simp_all [beq]
  | .const _, u, h => by cases u <;> simp_all [beq]
  | .abs _ b, u, h => by
    cases u <;> simp [beq] at h
    exact h.1 ▸ eq_of_beq h.2 ▸ rfl
  | .app l r, u, h => by
    cases u <;> simp [beq] at h
    exact eq_of_beq h.1 ▸ eq_of_beq h.2 ▸ rfl
  | .list ts, u, h => by
    cases u <;> simp [beq] at h
    exact eq_of_beqList h ▸ rfl
  | .instr _ ts, u, h => by
    cases u <;> simp [beq] at h
    exact h.1 ▸ eq_of_beqList h.2 ▸ rfl
  | .define _ _ a b, u, h => by
    cases u <;> simp [beq] at h
    obtain ⟨⟨⟨rfl, rfl⟩, ha⟩, hb⟩ := h
    exact eq_of_beq ha ▸ eq_of_beq hb ▸ rfl
  | .recur ds b, u, h => by
    cases u <;> simp [beq] at h
    exact eq_of_beqDefs h.1 ▸ eq_of_beq h.2 ▸ rfl
theorem eq_of_beqList : ∀ {ts us : List Term}, beqList ts us = true → ts = us
  | [], us, h => by cases us <;> simp_all [beqList]
  | t :: ts, us, h => by
    cases us <;> simp [beqList] at h
    exact eq_of_beq h.1 ▸ eq_of_beqList h.2 ▸ rfl
theorem eq_of_beqDefs : ∀ {ds es : List (String × Term)}, beqDefs ds es = true → ds = es
  | [], es, h => by cases es <;> simp_all [beqDefs]
  | (x, t) :: ds, [], h => by simp [beqDefs] at h
  | (x, t) :: ds, (y, u) :: es, h => by
    simp [beqDefs] at h
    obtain ⟨⟨rfl, ht⟩, hds⟩ := h
    exact eq_of_beq ht ▸ eq_of_beqDefs hds ▸ rfl
end

/-- `beq` decides literal equality. -/
theorem beq_iff_eq {t u : Term} : t.beq u = true ↔ t = u :=
  ⟨eq_of_beq, fun h => h ▸ beq_self t⟩

instance : DecidableEq Term := fun t u => decidable_of_iff (t.beq u = true) beq_iff_eq

/-! ## Strict equality -/

mutual
/-- Applies a function to every instruction head. -/
def mapHeads (f : InstructionHead → InstructionHead) : Term → Term
  | .var v => .var v
  | .abs binders body => .abs binders (body.mapHeads f)
  | .app l r => .app (l.mapHeads f) (r.mapHeads f)
  | .const c => .const c
  | .list elems => .list (mapHeadsList f elems)
  | .instr head args => .instr (f head) (mapHeadsList f args)
  | .define form x a b => .define form x (a.mapHeads f) (b.mapHeads f)
  | .recur defs b => .recur (mapHeadsDefs f defs) (b.mapHeads f)
/-- `mapHeads` on every element. -/
def mapHeadsList (f : InstructionHead → InstructionHead) : List Term → List Term
  | [] => []
  | t :: ts => t.mapHeads f :: mapHeadsList f ts
/-- `mapHeads` on every assignment. -/
def mapHeadsDefs (f : InstructionHead → InstructionHead) :
    List (String × Term) → List (String × Term)
  | [] => []
  | (x, t) :: defs => (x, t.mapHeads f) :: mapHeadsDefs f defs
end

theorem mapHeadsList_eq_map (f : InstructionHead → InstructionHead) (ts : List Term) :
    mapHeadsList f ts = ts.map (mapHeads f) := by
  induction ts with
  | nil => rfl
  | cons t ts ih => rw [mapHeadsList, ih, List.map_cons]

theorem mapHeadsDefs_eq_map (f : InstructionHead → InstructionHead) (defs : List (String × Term)) :
    mapHeadsDefs f defs = defs.map fun p => (p.1, p.2.mapHeads f) := by
  induction defs with
  | nil => rfl
  | cons p defs ih => rw [mapHeadsDefs, ih, List.map_cons]

/-- The term as strict equality sees it. -/
def erased (t : Term) : Term := t.mapHeads .erased

/-- Strict equality: the terms are literally equal but for which actions their instructions have. -/
def StrictEq (t u : Term) : Prop := t.erased = u.erased

instance (t u : Term) : Decidable (t.StrictEq u) := inferInstanceAs (Decidable (_ = _))

namespace StrictEq

variable {t u w : Term}

theorem of_eq (h : t = u) : t.StrictEq u := congrArg erased h

theorem symm (h : t.StrictEq u) : u.StrictEq t := Eq.symm h

theorem trans (h : t.StrictEq u) (h' : u.StrictEq w) : t.StrictEq w := Eq.trans h h'

end StrictEq

/-- An instruction is never strictly equal to a variable. -/
theorem strictEq_var_iff {t : Term} {v : Variable} : t.StrictEq (.var v) ↔ t = .var v := by
  cases t <;> simp [StrictEq, erased, mapHeads]

/-! ## Constructors and inspection -/

/-- Left-nested application: `f a b` is `(f a) b`. -/
def appMany (f : Term) (args : List Term) : Term := args.foldl .app f

/-- An instruction that has received `args`, which are at most as many as its arity. -/
def ofInstruction (head : InstructionHead) (args : List Term) : Except Fault Term :=
  if args.length ≤ head.arity then .ok (.instr head args)
  else .error (.tooManyArguments head.name head.arity args.length)

/-- A recursive block, which needs a definition. -/
def ofDefinitions (defs : List (String × Term)) (body : Term) : Except Fault Term :=
  if defs.isEmpty then .error .noDefinitions else .ok (.recur defs body)

/-- Whether the term can consume an argument directly. -/
def isApplicable : Term → Bool
  | .abs _ _ | .instr _ _ => true
  | _ => false

/-- Binders for the given names, outermost first: the last name gets depth `1`. -/
def numbered : List String → List Variable
  | [] => []
  | x :: xs => ⟨x, xs.length + 1⟩ :: numbered xs

end Term

/-- Whether an instruction that holds `args` is to be run. -/
def InstructionHead.isReady (head : InstructionHead) (args : List Term) : Bool :=
  args.length == head.arity && head.native

end IndexedLambda
