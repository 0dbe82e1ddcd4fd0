import IndexedLambda.Term.Basic
import IndexedLambda.Types.Constant
/-!
# Monotypes

A monotype is a variable, a constant, a constant applied to parameters, or a dependent instance: an
application that is also indexed by terms, each with its kind. `Monotype.beq` decides literal equality.
Strict equality, `Monotype.StrictEq`, compares index terms strictly.

Substitution is simultaneous and given by a function on variables. It reaches parameters and kinds
and leaves index terms alone.
-/

namespace IndexedLambda

inductive Monotype where
  | var (v : TypeVariable)
  | const (c : TypeConstant)
  | app (head : TypeConstant) (params : List Monotype)
  /-- An application indexed by terms of the given kinds. -/
  | inst (head : TypeConstant) (params : List Monotype) (index : List (Term × Monotype))

namespace Monotype

instance : Inhabited Monotype := ⟨.const (.plain "")⟩

/-- Induction on a monotype with a hypothesis for every parameter and every kind. -/
theorem induction_on {motive : Monotype → Prop}
    (var : ∀ v, motive (.var v))
    (const : ∀ c, motive (.const c))
    (app : ∀ head params, (∀ p ∈ params, motive p) → motive (.app head params))
    (inst : ∀ head params index, (∀ p ∈ params, motive p) → (∀ j ∈ index, motive j.2) →
      motive (.inst head params index))
    (m : Monotype) : motive m :=
  @Monotype.rec motive (fun ms => ∀ m ∈ ms, motive m) (fun js => ∀ j ∈ js, motive j.2)
    (fun j => motive j.2) var const app inst
    (fun _ h => nomatch h)
    (fun _ _ hm hms _ h => by
      rcases List.mem_cons.mp h with rfl | h
      · exact hm
      · exact hms _ h)
    (fun _ h => nomatch h)
    (fun _ _ hj hjs _ h => by
      rcases List.mem_cons.mp h with rfl | h
      · exact hj
      · exact hjs _ h)
    (fun _ _ h => h) m

/-! ## Literal equality -/

mutual
/-- Literal equality of two monotypes. -/
def beq : Monotype → Monotype → Bool
  | .var v, .var w => v == w
  | .const c, .const d => c == d
  | .app h ps, .app k qs => h == k && beqList ps qs
  | .inst h ps is, .inst k qs js => h == k && beqList ps qs && beqIndex is js
  | _, _ => false
/-- Literal equality of two lists of monotypes. -/
def beqList : List Monotype → List Monotype → Bool
  | [], [] => true
  | p :: ps, q :: qs => p.beq q && beqList ps qs
  | _, _ => false
/-- Literal equality of two indices. -/
def beqIndex : List (Term × Monotype) → List (Term × Monotype) → Bool
  | [], [] => true
  | (t, k) :: is, (u, l) :: js => t == u && k.beq l && beqIndex is js
  | _, _ => false
end

mutual
theorem beq_self : ∀ m : Monotype, m.beq m = true
  | .var _ | .const _ => by simp [beq]
  | .app _ ps => by simp [beq, beqList_self ps]
  | .inst _ ps js => by simp [beq, beqList_self ps, beqIndex_self js]
theorem beqList_self : ∀ ms : List Monotype, beqList ms ms = true
  | [] => rfl
  | m :: ms => by simp [beqList, beq_self m, beqList_self ms]
theorem beqIndex_self : ∀ js : List (Term × Monotype), beqIndex js js = true
  | [] => rfl
  | (_, k) :: js => by simp [beqIndex, beq_self k, beqIndex_self js]
end

mutual
theorem eq_of_beq : ∀ {m n : Monotype}, m.beq n = true → m = n
  | .var _, n, h => by cases n <;> simp_all [beq]
  | .const _, n, h => by cases n <;> simp_all [beq]
  | .app _ ps, n, h => by
    cases n <;> simp [beq] at h
    exact h.1 ▸ eq_of_beqList h.2 ▸ rfl
  | .inst _ ps js, n, h => by
    cases n <;> simp [beq] at h
    exact h.1.1 ▸ eq_of_beqList h.1.2 ▸ eq_of_beqIndex h.2 ▸ rfl
theorem eq_of_beqList : ∀ {ms ns : List Monotype}, beqList ms ns = true → ms = ns
  | [], ns, h => by cases ns <;> simp_all [beqList]
  | m :: ms, ns, h => by
    cases ns <;> simp [beqList] at h
    exact eq_of_beq h.1 ▸ eq_of_beqList h.2 ▸ rfl
theorem eq_of_beqIndex : ∀ {is js : List (Term × Monotype)}, beqIndex is js = true → is = js
  | [], js, h => by cases js <;> simp_all [beqIndex]
  | (t, k) :: is, [], h => by simp [beqIndex] at h
  | (t, k) :: is, (u, l) :: js, h => by
    simp [beqIndex] at h
    obtain ⟨⟨rfl, hk⟩, his⟩ := h
    exact eq_of_beq hk ▸ eq_of_beqIndex his ▸ rfl
end

/-- `beq` decides literal equality. -/
theorem beq_iff_eq {m n : Monotype} : m.beq n = true ↔ m = n :=
  ⟨eq_of_beq, fun h => h ▸ beq_self m⟩

instance : DecidableEq Monotype := fun m n => decidable_of_iff (m.beq n = true) beq_iff_eq

/-! ## Strict equality -/

mutual
/-- Applies a function to every index term. -/
def mapIndex (f : Term → Term) : Monotype → Monotype
  | .var v => .var v
  | .const c => .const c
  | .app head params => .app head (mapIndexList f params)
  | .inst head params index =>
    .inst head (mapIndexList f params) (mapIndexKinds f index)
/-- `mapIndex` on every element. -/
def mapIndexList (f : Term → Term) : List Monotype → List Monotype
  | [] => []
  | m :: ms => m.mapIndex f :: mapIndexList f ms
/-- The function on every index term, and `mapIndex` on every kind. -/
def mapIndexKinds (f : Term → Term) : List (Term × Monotype) → List (Term × Monotype)
  | [] => []
  | (t, k) :: js => (f t, k.mapIndex f) :: mapIndexKinds f js
end

/-- The type as strict equality sees it. -/
def erased (m : Monotype) : Monotype := m.mapIndex .erased

/-- Strict equality: the types are literally equal but for which actions instructions in their index
terms have. -/
def StrictEq (m n : Monotype) : Prop := m.erased = n.erased

instance (m n : Monotype) : Decidable (m.StrictEq n) := inferInstanceAs (Decidable (_ = _))

namespace StrictEq

variable {m n o : Monotype}

theorem of_eq (h : m = n) : m.StrictEq n := congrArg erased h

theorem symm (h : m.StrictEq n) : n.StrictEq m := Eq.symm h

theorem trans (h : m.StrictEq n) (h' : n.StrictEq o) : m.StrictEq o := Eq.trans h h'

end StrictEq

/-- A variable has no index, so strict equality with it is literal. -/
theorem strictEq_var_iff {m : Monotype} {v : TypeVariable} : m.StrictEq (.var v) ↔ m = .var v := by
  cases m <;> simp [StrictEq, erased, mapIndex]

/-! ## Stock constructors -/

/-- A variable that belongs to the first session. -/
def named (name : String) : Monotype := .var ⟨name, 0⟩

/-- A constant written in front of its parameters. -/
def plain (name : String) : Monotype := .const (.plain name)

/-- `a -> b` -/
def arrow (a b : Monotype) : Monotype := .app .arrow [a, b]

/-- `a & b` -/
def pair (a b : Monotype) : Monotype := .app .pair [a, b]

/-- `a | b` -/
def union (a b : Monotype) : Monotype := .app .union [a, b]

/-- `[a]` -/
def list (a : Monotype) : Monotype := .app .list [a]

/-! ## Inspection -/

def asVariable : Monotype → Option TypeVariable
  | .var v => some v
  | _ => none

def isVariable (m : Monotype) : Bool := m.asVariable.isSome

/-- Head name and parameters. A variable or a bare constant has none; an instance opens as the
application that it indexes. -/
def unapply : Monotype → String × List Monotype
  | .var v => (v.name, [])
  | .const c => (c.name, [])
  | .app head params => (head.name, params)
  | .inst head params _ => (head.name, params)

/-- An application with more parameters. Nothing else is an application. -/
def applyTo? (params : List Monotype) : Monotype → Option Monotype
  | .app head given => some (.app head (given ++ params))
  | _ => none

mutual
/-- Every occurrence of a variable, parameters before kinds. -/
def occurrences : Monotype → List TypeVariable
  | .var v => [v]
  | .const _ => []
  | .app _ params => occurrencesList params
  | .inst _ params index => occurrencesList params ++ occurrencesIndex index
/-- `occurrences` over all elements. -/
def occurrencesList : List Monotype → List TypeVariable
  | [] => []
  | m :: ms => m.occurrences ++ occurrencesList ms
/-- `occurrences` over all kinds. -/
def occurrencesIndex : List (Term × Monotype) → List TypeVariable
  | [] => []
  | (_, k) :: js => k.occurrences ++ occurrencesIndex js
end

/-- The free variables in the order of their first occurrence. -/
def freeVariables (m : Monotype) : List TypeVariable := m.occurrences.eraseDups

/-- Whether a variable occurs strictly inside the type: not in itself. -/
def hasInside (m : Monotype) (v : TypeVariable) : Bool :=
  !m.isVariable && m.freeVariables.contains v

/-! ## Substitution -/

mutual
/-- Replaces every variable by what `σ` gives for it. -/
def subst (σ : TypeVariable → Monotype) : Monotype → Monotype
  | .var v => σ v
  | .const c => .const c
  | .app head params => .app head (substList σ params)
  | .inst head params index => .inst head (substList σ params) (substIndex σ index)
/-- `subst` on every element. -/
def substList (σ : TypeVariable → Monotype) : List Monotype → List Monotype
  | [] => []
  | m :: ms => m.subst σ :: substList σ ms
/-- `subst` on every kind. -/
def substIndex (σ : TypeVariable → Monotype) : List (Term × Monotype) → List (Term × Monotype)
  | [] => []
  | (t, k) :: js => (t, k.subst σ) :: substIndex σ js
end

/-- The substitution of one type for one variable. -/
def single (v : TypeVariable) (m : Monotype) : TypeVariable → Monotype :=
  fun w => if w = v then m else .var w

/-- The substitution given by pairs of a variable and a type. The first pair for a variable
counts. -/
def assign (pairs : List (TypeVariable × Monotype)) : TypeVariable → Monotype :=
  fun v => (pairs.lookup v).getD (.var v)

end Monotype

end IndexedLambda
