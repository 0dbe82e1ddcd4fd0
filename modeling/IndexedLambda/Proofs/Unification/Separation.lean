import IndexedLambda.Proofs.Unification.Symmetry
/-!
# Bindings do not interfere

A class map files a variable under a written key, and names may hold the marks that keys are written
with. Keys tell variables apart all the same (`TypeVariable.key_inj`, `Variable.key_inj`), so what is
filed under one variable is found under no other: a binding is seen by the variable it was made for, and
a variable that was unbound before a different one was bound is still its own representative
(`ClassMap.find_bind_of_unbound`). Types are bound by `TypeContext.union`, index terms by
`TypeContext.unifyKind`.
-/

namespace IndexedLambda

namespace ClassMap

variable {α : Type} [Keyed α] [LawfulKeyed α] {c : ClassMap α} {a b x : α} {key : String}

/-- An unbound value does not notice that another one is bound. -/
theorem find_bind_of_unbound (hkey : Keyed.key? a = some key) (hne : x ≠ a) (hx : c.next? x = none) :
    (c.bind key b).find x = c.find x := by
  have hstill : (c.bind key b).next? x = none := (next?_bind_of_ne hkey hne).trans hx
  rw [find_of_next?_none hstill, find_of_next?_none hx]

end ClassMap

namespace TypeContext

variable {c : TypeContext}

theorem union_of_variable (c : TypeContext) {a b : Monotype}
    (h : a.isVariable = true ∨ b.isVariable = true) :
    ∃ v m, (a = .var v ∧ b = m ∨ b = .var v ∧ a = m) ∧ union a b c = .ok () (c.withType v m) := by
  cases a with
  | var v => exact ⟨v, b, Or.inl ⟨rfl, rfl⟩, rfl⟩
  | _ =>
      cases b with
      | var v => exact ⟨v, _, Or.inr ⟨rfl, rfl⟩, rfl⟩
      | _ => rcases h with h | h <;> cases h

theorem find_withType_of_unbound {v w : TypeVariable} (m : Monotype) (hne : w ≠ v)
    (hw : c.classes.get? w.key = none) : (c.withType v m).find (.var w) = c.find (.var w) := by
  have hvars : Monotype.var w ≠ .var v := by simpa using hne
  exact ClassMap.find_bind_of_unbound rfl hvars hw

theorem findKind_withKind_of_unbound {v w : Variable} (t : Term) (hne : w ≠ v)
    (hw : c.kinds.get? w.key = none) : (c.withKind v t).findKind (.var w) = c.findKind (.var w) := by
  have hvars : Term.var w ≠ .var v := by simpa using hne
  exact ClassMap.find_bind_of_unbound rfl hvars hw

/-- **Keys never collide.** Two type variables have one key exactly if they have one name and one session
number, and two index variables exactly if they have one name and one depth, whatever characters the names
are made of. Hence joining two types, one of them a variable, binds one variable and leaves every other
variable that was unbound, and all index terms, with the representatives they had; and unifying two index
terms whose representatives differ and are not both rigid binds one index variable and leaves every other
unbound one, and all types, with theirs. -/
theorem keys_separate_variables :
    (∀ v w : TypeVariable, v.key = w.key ↔ v.name = w.name ∧ v.context = w.context) ∧
    (∀ v w : Variable, v.key = w.key ↔ v.name = w.name ∧ v.depth = w.depth) ∧
    (∀ (c : TypeContext) (a b : Monotype), a.isVariable = true ∨ b.isVariable = true →
      ∃ v m c', union a b c = .ok () c' ∧ (a = .var v ∧ b = m ∨ b = .var v ∧ a = m) ∧
        c'.classes.get? v.key = some m ∧
        (∀ w, w ≠ v → c.classes.get? w.key = none → c'.find (.var w) = c.find (.var w)) ∧
        ∀ t, c'.findKind t = c.findKind t) ∧
    ∀ (natives : InstructionSet) (n : Nat) (c : TypeContext) (s t : Term),
      ¬(c.findKind s).StrictEq (c.findKind t) → ¬Apart (c.findKind s) (c.findKind t) →
      ∃ v u c', unifyKind natives n s t c = .ok .ok c' ∧
        Meets (.var v) u (c.findKind s) (c.findKind t) ∧ c'.kinds.get? v.key = some u ∧
        (∀ w, w ≠ v → c.kinds.get? w.key = none → c'.findKind (.var w) = c.findKind (.var w)) ∧
        ∀ m, c'.find m = c.find m := by
  refine ⟨fun v w => ?_, fun v w => ?_, fun c a b hvar => ?_, fun natives n c s t hne hvar => ?_⟩
  · obtain ⟨name, context⟩ := v
    rw [TypeVariable.key_inj, TypeVariable.mk.injEq]
  · obtain ⟨name, depth⟩ := v
    rw [Variable.key_inj, Variable.mk.injEq]
  · obtain ⟨v, m, hsides, hrun⟩ := union_of_variable c hvar
    refine ⟨v, m, c.withType v m, hrun, hsides, ?_, fun w hw hunbound => ?_, fun t => rfl⟩
    · exact (ClassMap.get?_bind _ _ _ _).trans (if_pos rfl)
    · exact find_withType_of_unbound m hw hunbound
  · obtain ⟨v, u, step, hmeets, hrun⟩ := unifyKind_of_variable natives n hne hvar
    have hkinds := kinds_noted c step
    refine ⟨v, u, (c.noted step).withKind v u, hrun, hmeets, ?_, fun w hw hunbound => ?_, fun m => ?_⟩
    · exact (ClassMap.get?_bind _ _ _ _).trans (if_pos rfl)
    · rw [findKind_withKind_of_unbound u hw (hkinds ▸ hunbound)]
      show (c.noted step).kinds.find (.var w) = c.kinds.find (.var w)
      rw [hkinds]
    · show (c.noted step).classes.find m = c.classes.find m
      rw [classes_noted]

/-- Names that look like keys: binding `a#1`, of session `2`, leaves `a`, of session `1`, alone, and
binding `x[1]`, of depth `2`, leaves `x`, of depth `1`, alone. -/
theorem keys_separate_marked_names :
    let natives : InstructionSet := fun _ _ => .fail none
    let c := startingAt 0 0
    let marked : TypeVariable := ⟨"a#1", 2⟩
    let plain : TypeVariable := ⟨"a", 1⟩
    let markedIndex : Variable := ⟨"x[1]", 2⟩
    let plainIndex : Variable := ⟨"x", 1⟩
    marked.key ≠ plain.key ∧ markedIndex.key ≠ plainIndex.key ∧
    (∃ c', union (.var marked) (.plain "Nat") c = .ok () c' ∧ c'.find (.var plain) = .var plain) ∧
    ∃ c', unifyKind natives 0 (.const "k") (.var markedIndex) c = .ok .ok c' ∧
      c'.findKind (.var plainIndex) = .var plainIndex := by
  intro natives c marked plain markedIndex plainIndex
  obtain ⟨htype, hindex, hunion, hkind⟩ := keys_separate_variables
  obtain ⟨v, m, c', hrun, hsides, -, hothers, -⟩ := hunion c (.var marked) (.plain "Nat") (Or.inl rfl)
  obtain ⟨w, u, d, hrun', hmeets, -, hothers', -⟩ := hkind natives 0 c (.const "k") (.var markedIndex)
    (by decide) (fun h => h.right markedIndex rfl)
  have hv : plain ≠ v := by
    rcases hsides with ⟨hv, -⟩ | ⟨hv, -⟩
    · rw [← Monotype.var.inj hv]
      decide
    · cases hv
  have hw : plainIndex ≠ w := by
    rcases hmeets.2 with ⟨hw, -⟩ | ⟨hw, -⟩
    · cases hw
    · rw [← Term.var.inj hw]
      decide
  refine ⟨fun h => ?_, fun h => ?_, ⟨c', hrun, ?_⟩, d, hrun', ?_⟩
  · exact absurd ((htype marked plain).mp h).1 (by decide)
  · exact absurd ((hindex markedIndex plainIndex).mp h).1 (by decide)
  · exact hothers plain hv (ClassMap.get?_empty _)
  · exact hothers' plainIndex hw (ClassMap.get?_empty _)

end TypeContext

end IndexedLambda
