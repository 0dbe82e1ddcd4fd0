import IndexedLambda.Types.Scheme
/-!
# Dependent types and their instances

A dependent type becomes an instance when its binders are indexed, and an instance becomes a
dependent type when the variables at the end of its index are turned into binders. Both ways an index
is cut in two: what is kept, and variables. A cut is the one that generalising makes if what is kept
does not end in a variable (`trailingVariables_eq_iff`). So generalising and indexing by the own
variables undo each other, on the dependent types that keep no variable at the end.

Indexing by arbitrary terms, one after the other, appends them to what is kept, each with the kind of
its binder.
-/

namespace IndexedLambda

/-! ## The end of an index -/

/-- The index is empty or ends in a term that is not a variable. -/
def EndsFixed (index : List (Term × Monotype)) : Prop :=
  ∀ entry ∈ index.getLast?, ∀ v, entry.1 ≠ .var v

theorem endsFixed_nil : EndsFixed [] := by simp [EndsFixed]

theorem endsFixed_cons {entry : Term × Monotype} {index : List (Term × Monotype)} :
    EndsFixed (entry :: index) ↔ EndsFixed index ∧ (index = [] → ∀ v, entry.1 ≠ .var v) := by
  cases index with
  | nil => simp [EndsFixed]
  | cons next index => simp [EndsFixed, List.getLast?_cons_cons]

/-- An index is what is kept followed by the variables at the end. -/
theorem trailingVariables_append (index : List (Term × Monotype)) :
    (trailingVariables index).1 ++ (trailingVariables index).2.map (fun b => (.var b.1, b.2)) =
      index := by
  fun_induction trailingVariables index with
  | case1 => rfl
  | case2 k index binders v hrest ih =>
      rw [hrest] at ih
      simpa using ih
  | case3 t k index kept binders hnot hrest ih =>
      rw [hrest] at ih
      simpa using ih

/-- No more variables could have been cut off. -/
theorem endsFixed_trailingVariables (index : List (Term × Monotype)) :
    EndsFixed (trailingVariables index).1 := by
  fun_induction trailingVariables index with
  | case1 => exact endsFixed_nil
  | case2 k index binders v hrest ih => exact endsFixed_nil
  | case3 t k index kept binders hnot hrest ih =>
      rw [hrest] at ih
      refine endsFixed_cons.mpr ⟨ih, ?_⟩
      rintro rfl v rfl
      exact hnot v rfl rfl

theorem trailingVariables_of_variables (binders : List (Variable × Monotype)) :
    trailingVariables (binders.map fun b => (.var b.1, b.2)) = ([], binders) := by
  induction binders with
  | nil => rfl
  | cons b binders ih =>
      rw [List.map_cons]
      unfold trailingVariables
      rw [ih]

/-- There is only one way to cut an index into what does not end in a variable, and variables. -/
theorem trailingVariables_of_endsFixed {kept : List (Term × Monotype)} (hkept : EndsFixed kept)
    (binders : List (Variable × Monotype)) :
    trailingVariables (kept ++ binders.map fun b => (.var b.1, b.2)) = (kept, binders) := by
  induction kept with
  | nil => exact trailingVariables_of_variables binders
  | cons entry kept ih =>
      obtain ⟨hrest, hentry⟩ := endsFixed_cons.mp hkept
      obtain ⟨t, k⟩ := entry
      rw [List.cons_append]
      unfold trailingVariables
      rw [ih hrest]
      split
      · rename_i v heq
        obtain ⟨hnil, -⟩ := Prod.mk.inj heq
        exact absurd rfl (hentry hnil v)
      · rename_i heq _
        obtain ⟨rfl, rfl⟩ := Prod.mk.inj heq
        rfl

theorem trailingVariables_eq_iff {index kept : List (Term × Monotype)}
    {binders : List (Variable × Monotype)} :
    trailingVariables index = (kept, binders) ↔
      kept ++ binders.map (fun b => (.var b.1, b.2)) = index ∧ EndsFixed kept := by
  constructor
  · intro h
    have happend := trailingVariables_append index
    have hfixed := endsFixed_trailingVariables index
    rw [h] at happend hfixed
    exact ⟨happend, hfixed⟩
  · rintro ⟨rfl, hkept⟩
    exact trailingVariables_of_endsFixed hkept binders

/-! ## Generalising an index -/

theorem DependentType.indexedBySelf_eq (d : DependentType) : d.indexedBySelf =
    .inst d.head d.params (d.index ++ d.binders.map fun b => (.var b.1, b.2)) := by
  rw [indexedBySelf, indexedBy, List.zip_map']

theorem DependentType.indexedBySelf_eq_inst_iff {d : DependentType} {head : TypeConstant}
    {params : List Monotype} {index : List (Term × Monotype)} :
    d.indexedBySelf = .inst head params index ↔ d.head = head ∧ d.params = params ∧
      d.index ++ d.binders.map (fun b => (.var b.1, b.2)) = index := by
  rw [indexedBySelf_eq, Monotype.inst.injEq]

namespace Body

variable {head : TypeConstant} {params : List Monotype} {index : List (Term × Monotype)}

/-- An instance stays as it is exactly if its index does not end in a variable. -/
theorem generalizeIndex_eq_mono_iff {m : Monotype} : generalizeIndex head params index = .mono m ↔
    m = .inst head params index ∧ EndsFixed index := by
  unfold generalizeIndex
  obtain ⟨⟨kept, binders⟩, hsplit⟩ : ∃ split, trailingVariables index = split := ⟨_, rfl⟩
  obtain ⟨happend, hfixed⟩ := trailingVariables_eq_iff.mp hsplit
  rw [hsplit]
  cases binders with
  | nil =>
      rw [List.map_nil, List.append_nil] at happend
      subst happend
      simp [eq_comm, hfixed]
  | cons first rest =>
      constructor
      · intro h
        cases h
      · rintro ⟨-, hindex⟩
        -- the whole index would be kept
        have hsplit' := trailingVariables_of_endsFixed hindex []
        rw [List.map_nil, List.append_nil, hsplit] at hsplit'
        cases hsplit'

/-- A dependent type comes out exactly if it gives the instance back, and what it keeps does not end
in a variable. -/
theorem generalizeIndex_eq_dependent_iff {d : DependentType} :
    generalizeIndex head params index = .dependent d ↔
      d.indexedBySelf = .inst head params index ∧ EndsFixed d.index := by
  rw [DependentType.indexedBySelf_eq_inst_iff]
  have hsplit : d.index ++ d.binders.map (fun b => (.var b.1, b.2)) = index ∧ EndsFixed d.index ↔
      trailingVariables index = (d.index, d.binders) := trailingVariables_eq_iff.symm
  rw [and_assoc, and_assoc, hsplit]
  unfold generalizeIndex
  generalize trailingVariables index = split
  obtain ⟨kept, binders⟩ := split
  obtain ⟨first, rest, head', params', index'⟩ := d
  cases binders with
  | nil => simp [DependentType.binders]
  | cons first' rest' =>
      simp only [DependentType.binders, dependent.injEq, DependentType.mk.injEq, Prod.mk.injEq,
        List.cons.injEq]
      constructor
      · rintro ⟨rfl, rfl, rfl, rfl, rfl⟩
        simp
      · rintro ⟨rfl, rfl, rfl, rfl, rfl⟩
        simp

/-- Kind binders are written back as index terms. -/
theorem indexedBySelf_generalizeIndex (head : TypeConstant) (params : List Monotype)
    (index : List (Term × Monotype)) :
    (generalizeIndex head params index).indexedBySelf = .inst head params index := by
  cases h : generalizeIndex head params index with
  | mono m => exact (generalizeIndex_eq_mono_iff.mp h).1
  | dependent d => exact (generalizeIndex_eq_dependent_iff.mp h).1

/-! ## Indexing one binder after the other -/

/-- Indexes binders by terms in turn. There is nothing to index once the last binder has its term. -/
def indexInTurn : Body → List Term → Option Body
  | b, [] => some b
  | .dependent d, t :: terms => indexInTurn (d.instantiate t) terms
  | .mono _, _ :: _ => none

/-- One term for each binder gives the instance that is indexed by all of them. -/
theorem indexInTurn_dependent (d : DependentType) {terms : List Term}
    (hlength : terms.length = d.binders.length) :
    indexInTurn (.dependent d) terms = some (.mono (d.indexedBy terms)) := by
  induction terms generalizing d with
  | nil => cases hlength
  | cons t terms ih =>
      obtain ⟨first, rest, head, params, index⟩ := d
      have hrest : terms.length = rest.length := Nat.succ.inj hlength
      cases rest with
      | nil =>
          obtain rfl : terms = [] := List.length_eq_zero_iff.mp hrest
          rfl
      | cons next rest =>
          -- what is left to index is the tail, behind the term that has been recorded
          show indexInTurn (.dependent ⟨next, rest, head, params, index ++ [(t, first.2)]⟩) terms = _
          rw [ih ⟨next, rest, head, params, index ++ [(t, first.2)]⟩ hrest]
          simp [DependentType.indexedBy, DependentType.binders]

/-- **Generalising an index and indexing undo each other.** An instance is generalised to itself exactly
if its index does not end in a variable, and otherwise to a dependent type with binders that gives
the instance back and keeps no variable at the end. The dependent types that come out in this way
are those that keep no variable at the end. Terms that are put in for the binders one at a time are
appended to the index in their order, each with its kind; the own variables give the instance that
is generalised. -/
theorem generalizeIndex_inverse :
    (∀ (head : TypeConstant) (params : List Monotype) (index : List (Term × Monotype)),
      (∀ m, generalizeIndex head params index = .mono m ↔
        m = .inst head params index ∧ EndsFixed index) ∧
      ∀ d, generalizeIndex head params index = .dependent d →
        d.binders ≠ [] ∧ d.indexedBySelf = .inst head params index ∧ EndsFixed d.index) ∧
    (∀ d : DependentType, EndsFixed d.index ↔ ∃ head params index,
      d.indexedBySelf = .inst head params index ∧
        generalizeIndex head params index = .dependent d) ∧
    (∀ (d : DependentType) (terms : List Term), terms.length = d.binders.length →
      indexInTurn (.dependent d) terms = some (.mono
        (.inst d.head d.params (d.index ++ terms.zip (d.binders.map (·.2)))))) ∧
    ∀ d : DependentType, indexInTurn (.dependent d) (d.binders.map fun b => .var b.1) =
      some (.mono d.indexedBySelf) := by
  refine ⟨fun head params index => ⟨fun m => generalizeIndex_eq_mono_iff, ?_⟩, ?_, ?_, ?_⟩
  · intro d hd
    exact ⟨by simp [DependentType.binders], generalizeIndex_eq_dependent_iff.mp hd⟩
  · intro d
    constructor
    · intro hfixed
      have hself := d.indexedBySelf_eq
      exact ⟨_, _, _, hself, generalizeIndex_eq_dependent_iff.mpr ⟨hself, hfixed⟩⟩
    · rintro ⟨head, params, index, -, hd⟩
      exact (generalizeIndex_eq_dependent_iff.mp hd).2
  · intro d terms hlength
    exact indexInTurn_dependent d hlength
  · intro d
    exact indexInTurn_dependent d (by simp)

/-- `(Array a; i 3 n m)` is generalised to `mapval n m . (Array a; i 3)`: the variable in front of the
number is kept. Put back, the variables give the instance; two terms give another one. -/
theorem generalizeIndex_inverse_of_mixed :
    let uint : Monotype := .const (.plain "Uint")
    let nat : Monotype := .const (.plain "Nat")
    let a : Monotype := .named "a"
    let i : Term × Monotype := (.var ⟨"i", 0⟩, uint)
    let three : Term × Monotype := (.const "3", uint)
    let index := [i, three, (.var ⟨"n", 0⟩, uint), (.var ⟨"m", 0⟩, nat)]
    let d : DependentType := ⟨(⟨"n", 0⟩, uint), [(⟨"m", 0⟩, nat)], .plain "Array", [a], [i, three]⟩
    generalizeIndex (.plain "Array") [a] index = .dependent d ∧ d.binders ≠ [] ∧
      d.indexedBySelf = .inst (.plain "Array") [a] index ∧ EndsFixed d.index ∧
      (∃ head params index, d.indexedBySelf = .inst head params index ∧
        generalizeIndex head params index = .dependent d) ∧
      indexInTurn (.dependent d) [.const "k", .var ⟨"i", 0⟩] = some (.mono
        (.inst (.plain "Array") [a] [i, three, (.const "k", uint), (.var ⟨"i", 0⟩, nat)])) ∧
      indexInTurn (.dependent d) [.var ⟨"n", 0⟩, .var ⟨"m", 0⟩] =
        some (.mono (.inst (.plain "Array") [a] index)) := by
  intro uint nat a i three index d
  obtain ⟨hinstance, hdependent, hturn, hown⟩ := generalizeIndex_inverse
  have hd : generalizeIndex (.plain "Array") [a] index = .dependent d := rfl
  obtain ⟨hbinders, hself, hfixed⟩ := (hinstance (.plain "Array") [a] index).2 d hd
  have hterms := hturn d [.const "k", .var ⟨"i", 0⟩] rfl
  have hback := hown d
  rw [hself] at hback
  exact ⟨hd, hbinders, hself, hfixed, (hdependent d).mp hfixed, hterms, hback⟩

end Body

end IndexedLambda
