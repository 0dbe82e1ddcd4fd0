import IndexedLambda.Proofs.Inference.Rules
import IndexedLambda.Proofs.Keys
/-!
# Fresh variables

Fresh variables come from counters: type variables `$0`, `$1`, .. from that of the type context, and
term variables `$e0`, `$e1`, .. from that of the name table. A counter goes up by one for each
variable and refuses to reach its last value. `Supply` is what the two have in common, and
`Supply.mapM_cases` says what comes out of a supply that is asked several times.

Opening a type asks both supplies. `Inference.instantiate_cases` gives the result in full: either
both counters had room, or the type was not opened because one of them ran out.
-/

namespace IndexedLambda

/-! ## Supplies -/

/-- The computation makes a numbered value and counts up, as long as there is room. -/
structure Supply {σ α : Type} (x : EStateM Fault σ α) where
  count : σ → Nat
  make : σ → Nat → α
  advance : Nat → σ → σ
  run : ∀ s, x s = if count s + 1 < counterRange then .ok (make s (count s)) (advance 1 s)
    else .error .overflow s
  count_advance : ∀ n s, count (advance n s) = count s + n
  make_advance : ∀ n s, make (advance n s) = make s
  advance_zero : ∀ s, advance 0 s = s
  advance_advance : ∀ m n s, advance n (advance m s) = advance (m + n) s

namespace Supply

variable {σ α β : Type} {x : EStateM Fault σ α} (supply : Supply x)

/-- The next values of a supply. -/
def next (s : σ) (n : Nat) : List α := (List.range' (supply.count s) n).map (supply.make s)

@[simp] theorem length_next (s : σ) (n : Nat) : (supply.next s n).length = n := by simp [next]

theorem next_succ (s : σ) (n : Nat) : supply.next s (n + 1) =
    supply.make s (supply.count s) :: supply.next (supply.advance 1 s) n := by
  rw [next, List.range'_succ, List.map_cons, next, supply.count_advance, supply.make_advance]

/-- A supply that is asked several times gives its next values, unless it runs out on the way. -/
theorem mapM_cases (bs : List β) (s : σ) :
    (bs.mapM fun _ => x) s = .ok (supply.next s bs.length) (supply.advance bs.length s) ∨
      ∃ k < bs.length, (bs.mapM fun _ => x) s = .error .overflow (supply.advance k s) ∧
        counterRange ≤ supply.count s + k + 1 := by
  induction bs generalizing s with
  | nil =>
      refine .inl ?_
      show EStateM.Result.ok [] s = .ok [] (supply.advance 0 s)
      rw [supply.advance_zero]
  | cons b bs ih =>
      rw [List.mapM_cons]
      have hrun := supply.run s
      by_cases hroom : supply.count s + 1 < counterRange
      · rw [if_pos hroom] at hrun
        rw [Stateful.bind_of_ok hrun, List.length_cons]
        rcases ih (supply.advance 1 s) with hrest | ⟨k, hk, hrest, hfull⟩
        · rw [Stateful.bind_of_ok hrest, supply.advance_advance, Nat.add_comm 1, next_succ]
          exact .inl rfl
        · rw [Stateful.bind_of_error hrest, supply.advance_advance]
          rw [supply.count_advance] at hfull
          exact .inr ⟨1 + k, by omega, rfl, by omega⟩
      · rw [if_neg hroom] at hrun
        rw [Stateful.bind_of_error hrun]
        exact .inr ⟨0, by simp, by rw [supply.advance_zero], by omega⟩

end Supply

/-! ## The two counters -/

/-- The fresh type variable with a given number. -/
def TypeContext.numbered (c : TypeContext) (k : Nat) : TypeVariable := ⟨s!"${k}", c.number⟩

/-- The fresh term variable with a given number. -/
def NameTable.numbered (k : Nat) : Variable := .unassigned s!"$e{k}"

theorem TypeContext.numbered_inj {c : TypeContext} {i j : Nat} (h : c.numbered i = c.numbered j) :
    i = j := append_repr_inj (congrArg TypeVariable.name h)

theorem NameTable.numbered_inj {i j : Nat} (h : numbered i = numbered j) : i = j :=
  append_repr_inj (congrArg Variable.name h)

theorem TypeContext.freshVar_eq (c : TypeContext) : freshVar c =
    if c.nextVar + 1 < counterRange then
      .ok (c.numbered c.nextVar) { c with nextVar := c.nextVar + 1 }
    else .error .overflow c := by
  unfold freshVar
  rw [Stateful.get_then]
  by_cases hroom : c.nextVar + 1 < counterRange
  · have hnext : nextCount c.nextVar = .ok (c.nextVar + 1) := if_pos hroom
    rw [hnext, if_pos hroom]
    rfl
  · have hnext : nextCount c.nextVar = .error .overflow := if_neg hroom
    rw [hnext, if_neg hroom]
    rfl

theorem NameTable.freshVar_eq (names : NameTable) : freshVar names =
    if names.nextVar + 1 < counterRange then
      .ok (numbered names.nextVar) { names with nextVar := names.nextVar + 1 }
    else .error .overflow names := by
  unfold freshVar
  rw [Stateful.get_then]
  by_cases hroom : names.nextVar + 1 < counterRange
  · have hnext : nextCount names.nextVar = .ok (names.nextVar + 1) := if_pos hroom
    rw [hnext, if_pos hroom]
    rfl
  · have hnext : nextCount names.nextVar = .error .overflow := if_neg hroom
    rw [hnext, if_neg hroom]
    rfl

namespace Inference

/-- The context after fresh type variables have been taken. -/
def drawTypes (n : Nat) (s : Inference) : Inference :=
  { s with types := { s.types with nextVar := s.types.nextVar + n } }

/-- The context after fresh term variables have been taken. -/
def drawTerms (n : Nat) (s : Inference) : Inference :=
  { s with terms := { s.terms with nextVar := s.terms.nextVar + n } }

/-- One of the two counters is at its end. -/
def Exhausted (s : Inference) : Prop :=
  counterRange ≤ s.types.nextVar + 1 ∨ counterRange ≤ s.terms.nextVar + 1

theorem onTypes_of_ok {α : Type} {x : ContextM α} {a : α} {s : Inference} {types : TypeContext}
    (h : x s.types = .ok a types) : onTypes x s = .ok a { s with types } := by
  unfold onTypes
  rw [h]

theorem onTypes_of_error {α : Type} {x : ContextM α} {f : Fault} {s : Inference}
    {types : TypeContext} (h : x s.types = .error f types) :
    onTypes x s = .error f { s with types } := by
  unfold onTypes
  rw [h]

theorem onTerms_of_ok {α : Type} {x : EStateM Fault NameTable α} {a : α} {s : Inference}
    {terms : NameTable} (h : x s.terms = .ok a terms) : onTerms x s = .ok a { s with terms } := by
  unfold onTerms
  rw [h]

theorem onTerms_of_error {α : Type} {x : EStateM Fault NameTable α} {f : Fault} {s : Inference}
    {terms : NameTable} (h : x s.terms = .error f terms) :
    onTerms x s = .error f { s with terms } := by
  unfold onTerms
  rw [h]

/-- The supply of fresh types. -/
def typeSupply : Supply (onTypes TypeContext.fresh) where
  count s := s.types.nextVar
  make s k := .var (s.types.numbered k)
  advance := drawTypes
  run s := by
    have hvar := s.types.freshVar_eq
    by_cases hroom : s.types.nextVar + 1 < counterRange
    · rw [if_pos hroom] at hvar ⊢
      exact onTypes_of_ok (Stateful.bind_of_ok hvar)
    · rw [if_neg hroom] at hvar ⊢
      exact onTypes_of_error (Stateful.bind_of_error hvar)
  count_advance _ _ := rfl
  make_advance _ _ := rfl
  advance_zero _ := rfl
  advance_advance m n s := by simp [drawTypes, Nat.add_assoc]

/-- The supply of fresh term variables. -/
def termSupply : Supply (do return Term.var (← NameTable.freshVar)) where
  count names := names.nextVar
  make _ k := .var (NameTable.numbered k)
  advance n names := { names with nextVar := names.nextVar + n }
  run names := by
    have hvar := names.freshVar_eq
    by_cases hroom : names.nextVar + 1 < counterRange
    · rw [if_pos hroom] at hvar ⊢
      exact Stateful.bind_of_ok hvar
    · rw [if_neg hroom] at hvar ⊢
      exact Stateful.bind_of_error hvar
  count_advance _ _ := rfl
  make_advance _ _ := rfl
  advance_zero _ := rfl
  advance_advance m n names := by simp [Nat.add_assoc]

end Inference

/-! ## Opening a type -/

/-- How many index terms the body waits for. -/
def Body.arity : Body → Nat
  | .mono _ => 0
  | .dependent d => d.binders.length

/-- The monotype of a body that is indexed by the given terms. -/
def Body.openedBy (terms : List Term) : Body → Monotype
  | .mono m => m
  | .dependent d => d.indexedBy terms

/-- The type with the given types for its bound variables and the given index terms. -/
def Ty.openedBy (y : Ty) (types : List Monotype) (terms : List Term) : Monotype :=
  (y.toPolytype.body.openedBy terms).subst (.assign (y.scheme.bound.zip types))

theorem Body.indexedByFresh_cases (b : Body) (names : NameTable) :
    b.indexedByFresh names = .ok (b.openedBy (Inference.termSupply.next names b.arity))
        { names with nextVar := names.nextVar + b.arity } ∨
      ∃ k < b.arity, b.indexedByFresh names =
          .error .overflow { names with nextVar := names.nextVar + k } ∧
        counterRange ≤ names.nextVar + k + 1 := by
  cases b with
  | mono m => exact .inl rfl
  | dependent d =>
      rcases Inference.termSupply.mapM_cases d.binders names with hrun | ⟨k, hk, hrun, hfull⟩
      · exact .inl (Stateful.bind_of_ok hrun)
      · exact .inr ⟨k, hk, Stateful.bind_of_error hrun, hfull⟩

namespace Inference

/-- Opening a type replaces its bound variables by fresh types and indexes its body by fresh
variables, unless a counter runs out. -/
theorem instantiate_cases (y : Ty) (s : Inference) :
    instantiate y s = .ok (y.openedBy (typeSupply.next s y.scheme.bound.length)
        (termSupply.next s.terms y.toPolytype.body.arity))
        (drawTerms y.toPolytype.body.arity (drawTypes y.scheme.bound.length s)) ∨
      ∃ s', instantiate y s = .error .overflow s' ∧ s'.Exhausted ∧
        (counterRange ≤ s.types.nextVar + y.scheme.bound.length ∨
          counterRange ≤ s.terms.nextVar + y.toPolytype.body.arity) := by
  rcases typeSupply.mapM_cases y.scheme.bound s with htypes | ⟨k, hk, htypes, hfull⟩
  · rcases y.toPolytype.body.indexedByFresh_cases s.terms with hterms | ⟨k, hk, hterms, hfull⟩
    · have hrun := onTerms_of_ok (s := drawTypes y.scheme.bound.length s) hterms
      exact .inl ((Stateful.bind_of_ok htypes).trans (Stateful.bind_of_ok hrun))
    · have hrun := onTerms_of_error (s := drawTypes y.scheme.bound.length s) hterms
      exact .inr ⟨_, (Stateful.bind_of_ok htypes).trans (Stateful.bind_of_error hrun), .inr hfull,
        .inr (by omega)⟩
  · have hlength : counterRange ≤ s.types.nextVar + y.scheme.bound.length := by
      have hcount : typeSupply.count s = s.types.nextVar := rfl
      omega
    exact .inr ⟨_, Stateful.bind_of_error htypes, .inl hfull, .inl hlength⟩

end Inference

end IndexedLambda
