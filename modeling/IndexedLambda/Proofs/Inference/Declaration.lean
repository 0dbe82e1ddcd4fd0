import IndexedLambda.Proofs.Algebra.StackBlind
import IndexedLambda.Proofs.Inference.Instantiation
import IndexedLambda.Proofs.Unification.Symmetry
/-!
# Two ways to open a type

A declaration replaces the binders of a type one after the other. An instantiation replaces them all
at once and passes over `_`. When no fresh variable is one of the binders, what the declaration has
put in for a binder is not touched again, and a binder that comes a second time is not found any
more. So the declaration is a simultaneous replacement as well (`Algebra.instantiateEach_cases`). It
counts places in the list of all binders, where the instantiation counts them in the list without
`_`, and a permutation of the fresh variables leads from the one result to the other.
-/

namespace IndexedLambda

/-! ## Fresh variables at places -/

namespace TypeContext

variable {c : TypeContext} {binders : List TypeVariable} {place : TypeVariable → Nat}
  {v w : TypeVariable}

/-- The context after fresh variables have been taken. -/
def drawn (n : Nat) (c : TypeContext) : TypeContext := { c with nextVar := c.nextVar + n }

theorem drawn_drawn (m n : Nat) (c : TypeContext) : (c.drawn m).drawn n = c.drawn (n + m) := by
  have hnext : c.nextVar + m + n = c.nextVar + (n + m) := by omega
  simp only [drawn, hnext]

/-- What becomes of a variable when the binders get the fresh variables at the given places, `_`
excepted. -/
def placed (c : TypeContext) (binders : List TypeVariable) (place : TypeVariable → Nat)
    (v : TypeVariable) : TypeVariable :=
  if v ∈ binders ∧ v.isWildcard = false then c.numbered (c.nextVar + place v) else v

theorem placed_of_bound (hv : v ∈ binders ∧ v.isWildcard = false) :
    c.placed binders place v = c.numbered (c.nextVar + place v) := if_pos hv

theorem placed_of_not_bound (hv : ¬(v ∈ binders ∧ v.isWildcard = false)) :
    c.placed binders place v = v := if_neg hv

theorem placed_nil : c.placed [] place v = v := placed_of_not_bound fun h => List.not_mem_nil h.1

/-! ## One binder after the other -/

/-- The first binder has a say in what becomes of the others only in that it takes a place. -/
theorem placed_cons_of_ne (hw : w ≠ v) : (c.drawn 1).placed binders binders.idxOf w =
    c.placed (v :: binders) (v :: binders).idxOf w := by
  have hbound : w ∈ v :: binders ∧ w.isWildcard = false ↔ w ∈ binders ∧ w.isWildcard = false := by
    simp [hw]
  by_cases h : w ∈ binders ∧ w.isWildcard = false
  · have hplace : c.nextVar + 1 + binders.idxOf w = c.nextVar + (binders.idxOf w + 1) := by omega
    rw [placed_of_bound h, placed_of_bound (hbound.mpr h), List.idxOf_cons_ne _ hw.symm, ← hplace]
    rfl
  · rw [placed_of_not_bound h, placed_of_not_bound (mt hbound.mp h)]

/-- The first binder is replaced, and then the others at once. What was put in for the first one is
not touched again. -/
theorem subst_placed_instantiate (hnew : c.numbered c.nextVar ∉ binders) (b : Body) :
    (b.instantiate v (.var (c.numbered c.nextVar))).subst
        (fun w => .var ((c.drawn 1).placed binders binders.idxOf w)) =
      b.subst fun w => .var (c.placed (v :: binders) (v :: binders).idxOf w) := by
  unfold Body.instantiate
  by_cases hwild : v.isWildcard = true
  · rw [if_pos hwild]
    refine Body.subst_congr fun w _ => congrArg Monotype.var ?_
    by_cases hw : w = v
    · have hnot : ∀ l : List TypeVariable, ¬(w ∈ l ∧ w.isWildcard = false) := by
        rintro l ⟨-, h⟩
        rw [hw, hwild] at h
        cases h
      rw [placed_of_not_bound (hnot _), placed_of_not_bound (hnot _)]
    · exact placed_cons_of_ne hw
  · rw [if_neg hwild, Body.subst_subst]
    refine Body.subst_congr fun w _ => ?_
    by_cases hw : w = v
    · have hbound : v ∈ v :: binders ∧ v.isWildcard = false :=
        ⟨List.mem_cons_self, Bool.eq_false_iff.mpr hwild⟩
      rw [hw, Monotype.single, if_pos rfl, Monotype.subst_var,
        placed_of_not_bound fun h => hnew h.1, placed_of_bound hbound, List.idxOf_cons_self]
      rfl
    · rw [Monotype.single, if_neg hw, Monotype.subst_var, placed_cons_of_ne hw]

end TypeContext

namespace Algebra

/-- Binders that are replaced one after the other are replaced at once, if no fresh variable is a
binder. Each takes a fresh variable, `_` and repeated ones too. -/
theorem instantiateEach_cases (binders : List TypeVariable) (b : Body) (c : TypeContext)
    (hnew : ∀ k < binders.length, c.numbered (c.nextVar + k) ∉ binders) :
    instantiateEach binders b c =
      .ok (b.subst fun v => .var (c.placed binders binders.idxOf v)) (c.drawn binders.length) ∨
    ∃ d, instantiateEach binders b c = .error (.fault .overflow) d ∧
      counterRange ≤ c.nextVar + binders.length := by
  induction binders generalizing b c with
  | nil =>
      have hself : b.subst (fun v => .var (c.placed [] [].idxOf v)) = b := by
        simp only [TypeContext.placed_nil]
        exact b.subst_var
      rw [hself]
      exact .inl rfl
  | cons v binders ih =>
      have hstep : instantiateEach (v :: binders) b = (do
          let m ← TypeContext.fresh
          instantiateEach binders (b.instantiate v m)) := by
        simp only [instantiateEach, List.foldlM_cons, bind_assoc, pure_bind]
      by_cases hroom : c.nextVar + 1 < counterRange
      · have hfirst : c.numbered c.nextVar ∉ binders := fun h =>
          hnew 0 (Nat.succ_pos _) (List.mem_cons_of_mem v h)
        have hrest : ∀ k < binders.length, c.numbered (c.nextVar + 1 + k) ∉ binders := by
          intro k hk h
          refine hnew (k + 1) (Nat.succ_lt_succ hk) (List.mem_cons_of_mem v ?_)
          have hnext : c.nextVar + (k + 1) = c.nextVar + 1 + k := by omega
          rwa [hnext]
        have hrun : instantiateEach (v :: binders) b c = instantiateEach binders
            (b.instantiate v (.var (c.numbered c.nextVar))) (c.drawn 1) := by
          rw [hstep]
          exact Stateful.bind_of_ok (fresh_of_room hroom)
        rw [hrun, ← TypeContext.subst_placed_instantiate hfirst, List.length_cons,
          ← TypeContext.drawn_drawn]
        refine (ih _ (c.drawn 1) hrest).imp_right ?_
        rintro ⟨d, hd, hfull⟩
        exact ⟨d, hd, by rwa [Nat.add_comm binders.length, ← Nat.add_assoc]⟩
      · refine .inr ⟨c, ?_, ?_⟩
        · rw [hstep]
          exact Stateful.bind_of_error (fresh_of_full hroom)
        · rw [List.length_cons]
          omega

end Algebra

/-- How many fresh variables a declaration takes. A polytype takes one even if it has no binder. -/
def Ty.freshCount : Ty → Nat
  | .bare _ => 0
  | .poly p => max 1 p.binders.length

theorem Ty.length_binders_le (y : Ty) : y.toPolytype.binders.length ≤ y.freshCount := by
  cases y with
  | bare b => exact Nat.le_refl 0
  | poly p => exact Nat.le_max_right 1 _

theorem Ty.length_named_le (y : Ty) : y.toPolytype.named.length ≤ y.freshCount :=
  Nat.le_trans (List.length_filter_le _ _) y.length_binders_le

namespace Algebra

/-- A declaration replaces all binders at once, unless the counter runs out. -/
theorem declare_cases (y : Ty) {b : Monotype} (hbody : y.toPolytype.body = .mono b)
    (c : TypeContext)
    (hnew : ∀ k < y.freshCount, c.numbered (c.nextVar + k) ∉ y.toPolytype.binders) :
    declare y c = .ok (b.subst fun v => .var
        (c.placed y.toPolytype.binders y.toPolytype.binders.idxOf v)) (c.drawn y.freshCount) ∨
      ∃ d, declare y c = .error (.fault .overflow) d ∧ counterRange ≤ c.nextVar + y.freshCount := by
  have hnone : b.subst (fun v => .var (c.placed [] [].idxOf v)) = b :=
    Monotype.subst_eq_self fun v _ => congrArg Monotype.var TypeContext.placed_nil
  rcases y with body | ⟨binders, body⟩
  · obtain rfl : body = .mono b := hbody
    exact .inl (hnone.symm ▸ rfl)
  · obtain rfl : body = .mono b := hbody
    cases binders with
    | nil =>
        by_cases hroom : c.nextVar + 1 < counterRange
        · refine .inl ?_
          rw [show (Ty.poly ⟨[], .mono b⟩).toPolytype.binders = [] from rfl, hnone]
          exact Stateful.bind_of_ok (fresh_of_room hroom)
        · exact .inr ⟨c, Stateful.bind_of_error (fresh_of_full hroom), Nat.le_of_not_lt hroom⟩
    | cons v binders =>
        have hcount : (Ty.poly ⟨v :: binders, .mono b⟩).freshCount = (v :: binders).length :=
          Nat.max_eq_right (Nat.succ_pos _)
        rw [hcount] at hnew ⊢
        rcases instantiateEach_cases (v :: binders) (.mono b) c hnew with hrun | ⟨d, hrun, hfull⟩
        · exact .inl (Stateful.bind_of_ok hrun)
        · exact .inr ⟨d, Stateful.bind_of_error hrun, hfull⟩

theorem eq_of_declare {y : Ty} {b m : Monotype} (hbody : y.toPolytype.body = .mono b)
    {c d : TypeContext}
    (hnew : ∀ k < y.freshCount, c.numbered (c.nextVar + k) ∉ y.toPolytype.binders)
    (h : declare y c = .ok m d) :
    m = b.subst (fun v => .var (c.placed y.toPolytype.binders y.toPolytype.binders.idxOf v)) ∧
      d = c.drawn y.freshCount := by
  rcases declare_cases y hbody c hnew with hrun | ⟨e, hrun, -⟩
  · cases h.symm.trans hrun
    exact ⟨rfl, rfl⟩
  · cases h.symm.trans hrun

end Algebra

/-! ## Places of their own -/

/-- Every binder but `_` has a place of its own among the first ones. -/
structure Places (binders : List TypeVariable) (place : TypeVariable → Nat) (count : Nat) :
    Prop where
  lt : ∀ v, v ∈ binders ∧ v.isWildcard = false → place v < count
  inj : ∀ v w, v ∈ binders ∧ v.isWildcard = false → place v = place w → v = w

theorem places_binders {binders : List TypeVariable} {count : Nat} (h : binders.length ≤ count) :
    Places binders binders.idxOf count where
  lt _ hv := Nat.lt_of_lt_of_le (List.idxOf_lt_length_iff.mpr hv.1) h
  inj _ _ hv hsame := (List.idxOf_inj hv.1).mp hsame

theorem Polytype.places_named (p : Polytype) : Places p.binders p.named.idxOf p.named.length where
  lt _ hv := List.idxOf_lt_length_iff.mpr (mem_named.mpr hv)
  inj _ _ hv hsame := (List.idxOf_inj (mem_named.mpr hv)).mp hsame

namespace Inference

variable {s s' : Inference} {binders : List TypeVariable} {place : TypeVariable → Nat} {count : Nat}
  {v w : TypeVariable}

theorem opening_eq_placed (s : Inference) (p : Polytype) (v : TypeVariable) :
    s.opening p v = s.types.placed p.binders p.named.idxOf v :=
  if_congr Polytype.mem_named rfl rfl

theorem created_placed (h : Places binders place count)
    (hs' : s'.types.nextVar = s.types.nextVar + count) (hv : v ∈ binders ∧ v.isWildcard = false) :
    s.Created s' (s.types.placed binders place v) := by
  have hlt := h.lt v hv
  exact ⟨s.types.nextVar + place v, by omega, by omega, TypeContext.placed_of_bound hv⟩

/-- Among variables that are not fresh, those that become fresh are the bound ones. -/
theorem created_placed_iff (h : Places binders place count)
    (hs' : s'.types.nextVar = s.types.nextVar + count) (hv : ¬s.Created s' v) :
    s.Created s' (s.types.placed binders place v) ↔ v ∈ binders ∧ v.isWildcard = false := by
  constructor
  · intro hcreated
    by_contra hbound
    rw [TypeContext.placed_of_not_bound hbound] at hcreated
    exact hv hcreated
  · exact created_placed h hs'

theorem placed_inj (h : Places binders place count)
    (hs' : s'.types.nextVar = s.types.nextVar + count) (hv : ¬s.Created s' v) (hw : ¬s.Created s' w)
    (hsame : s.types.placed binders place v = s.types.placed binders place w) : v = w := by
  have hiff := created_placed_iff h hs' hv
  rw [hsame, created_placed_iff h hs' hw] at hiff
  by_cases hbound : v ∈ binders ∧ v.isWildcard = false
  · rw [TypeContext.placed_of_bound hbound, TypeContext.placed_of_bound (hiff.mpr hbound)] at hsame
    exact h.inj v w hbound (Nat.add_left_cancel (TypeContext.numbered_inj hsame))
  · rwa [TypeContext.placed_of_not_bound hbound,
      TypeContext.placed_of_not_bound (mt hiff.mp hbound)] at hsame

theorem eq_of_instantiate_mono {y : Ty} {b n : Monotype} (hbody : y.toPolytype.body = .mono b)
    (h : instantiate y s = .ok n s') : n = b.subst (fun v => .var (s.opening y.toPolytype v)) ∧
      s' = drawTypes y.toPolytype.named.length s := by
  rcases instantiate_mono_cases hbody s with hrun | ⟨_, hrun, -⟩
  · cases h.symm.trans hrun
    exact ⟨rfl, rfl⟩
  · cases h.symm.trans hrun

theorem not_created_of_unused {l : List TypeVariable} {n : Nat}
    (hunused : ∀ k < n, s.types.numbered (s.types.nextVar + k) ∉ l)
    (hs' : s'.types.nextVar ≤ s.types.nextVar + n) (hv : v ∈ l) : ¬s.Created s' v := by
  rintro ⟨k, hk, hk', rfl⟩
  obtain ⟨i, rfl⟩ := Nat.exists_eq_add_of_le hk
  exact hunused i (by omega) hv

/-- Two ways to give the binders places differ by a permutation of the fresh variables. -/
theorem exists_perm_placed {l : List TypeVariable} {place' : TypeVariable → Nat} {count' : Nat}
    {s₁ s₂ : Inference} (h₁ : Places binders place count) (h₂ : Places binders place' count')
    (hs₁ : s₁.types.nextVar = s.types.nextVar + count)
    (hs₂ : s₂.types.nextVar = s.types.nextVar + count')
    (hold : ∀ v ∈ l, ¬s.Created s₁ v ∧ ¬s.Created s₂ v) :
    ∃ π : Equiv.Perm TypeVariable,
      (∀ v ∈ l, π (s.types.placed binders place v) = s.types.placed binders place' v) ∧
      ∀ v, π v ≠ v → s.Created s₁ v ∨ s.Created s₂ v := by
  refine exists_perm_of_new (fun v hv w hw => placed_inj h₁ hs₁ (hold v hv).1 (hold w hw).1)
    (fun v hv w hw => placed_inj h₂ hs₂ (hold v hv).2 (hold w hw).2) fun v hv => ?_
  by_cases hbound : v ∈ binders ∧ v.isWildcard = false
  · exact .inl ⟨.inl (created_placed h₁ hs₁ hbound), .inr (created_placed h₂ hs₂ hbound)⟩
  · exact .inr ⟨TypeContext.placed_of_not_bound hbound, TypeContext.placed_of_not_bound hbound⟩

/-- **A declaration and an instantiation give the same type, up to the names of fresh variables.**
The type has a monotype for its body, and the fresh variables that are taken occur in it neither
bound nor free. Each of the two gives a type, unless the counter has no room for what it takes. A
permutation that moves fresh variables only makes the second type of the first, and it takes fresh
variables to fresh variables. -/
theorem declare_agrees_with_instantiate (s : Inference) (y : Ty) {b : Monotype}
    (hbody : y.toPolytype.body = .mono b)
    (hnew : ∀ k < y.freshCount, s.types.numbered (s.types.nextVar + k) ∉ y.toPolytype.binders ∧
      s.types.numbered (s.types.nextVar + k) ∉ b.occurrences) :
    ((∃ m d, Algebra.declare y s.types = .ok m d) ∨
      ∃ d, Algebra.declare y s.types = .error (.fault .overflow) d ∧
        counterRange ≤ s.types.nextVar + y.freshCount) ∧
    ((∃ n s', instantiate y s = .ok n s') ∨
      ∃ s', instantiate y s = .error .overflow s' ∧
        counterRange ≤ s.types.nextVar + y.toPolytype.named.length) ∧
    ∀ m d n s', Algebra.declare y s.types = .ok m d → instantiate y s = .ok n s' →
      ∃ π : Equiv.Perm TypeVariable, n = m.subst (fun v => .var (π v)) ∧
        (∀ v, π v ≠ v → s.Created { s with types := d } v ∨ s.Created s' v) ∧
        ∀ v ∈ m.occurrences, s.Created { s with types := d } v ↔ s.Created s' (π v) := by
  have hdeclare := Algebra.declare_cases y hbody s.types fun k hk => (hnew k hk).1
  have hinstantiate := instantiate_mono_cases hbody s
  refine ⟨hdeclare.imp_left fun h => ⟨_, _, h⟩, hinstantiate.imp_left fun h => ⟨_, _, h⟩, ?_⟩
  intro m d n s' hm hn
  obtain ⟨rfl, rfl⟩ := Algebra.eq_of_declare hbody (fun k hk => (hnew k hk).1) hm
  obtain ⟨rfl, rfl⟩ := eq_of_instantiate_mono hbody hn
  have hdeclared := places_binders y.length_binders_le
  have hopened := y.toPolytype.places_named
  have hold : ∀ v ∈ b.occurrences,
      ¬s.Created { s with types := s.types.drawn y.freshCount } v ∧
        ¬s.Created (drawTypes y.toPolytype.named.length s) v := fun v hv =>
    ⟨not_created_of_unused (fun k hk => (hnew k hk).2) (Nat.le_refl _) hv,
      not_created_of_unused (fun k hk => (hnew k hk).2)
        (Nat.add_le_add_left y.length_named_le _) hv⟩
  obtain ⟨π, hπ, hmoved⟩ := exists_perm_placed hdeclared hopened rfl rfl hold
  refine ⟨π, ?_, hmoved, fun x hx => ?_⟩
  · rw [Monotype.subst_subst]
    refine Monotype.subst_congr fun v hv => congrArg Monotype.var ?_
    rw [hπ v hv, opening_eq_placed]
  · obtain ⟨v, hv, hvar⟩ := Monotype.mem_occurrences_subst.mp hx
    obtain rfl := (Monotype.mem_occurrences_var _).mp hvar
    rw [hπ v hv, created_placed_iff hdeclared rfl (hold v hv).1,
      created_placed_iff hopened rfl (hold v hv).2]

/-- `forall a _ a b c . (a -> _) & (b -> d)`, opened with fresh variables from `$3` on. The
declaration takes five and puts the fourth of them in for `b`. The instantiation takes four and puts
in the third. -/
theorem declare_agrees_with_instantiate_of_repeated :
    let s := Inference.startingAt 3 0
    let body (a b : String) : Monotype :=
      .pair (.arrow (.named a) (.named "_")) (.arrow (.named b) (.named "d"))
    let y : Ty := .poly ⟨[⟨"a", 0⟩, ⟨"_", 0⟩, ⟨"a", 0⟩, ⟨"b", 0⟩, ⟨"c", 0⟩], .mono (body "a" "b")⟩
    ∃ d s', Algebra.declare y s.types = .ok (body "$3" "$6") d ∧ d.nextVar = 8 ∧
      instantiate y s = .ok (body "$3" "$5") s' ∧ s'.types.nextVar = 7 ∧
      ∃ π : Equiv.Perm TypeVariable,
        body "$3" "$5" = (body "$3" "$6").subst (fun v => .var (π v)) ∧
        (∀ v, π v ≠ v → s.Created { s with types := d } v ∨ s.Created s' v) ∧
        ∀ v ∈ (body "$3" "$6").occurrences,
          s.Created { s with types := d } v ↔ s.Created s' (π v) := by
  intro s body y
  have hnew : ∀ k < y.freshCount, s.types.numbered (s.types.nextVar + k) ∉ y.toPolytype.binders ∧
      s.types.numbered (s.types.nextVar + k) ∉ (body "a" "b").occurrences := by decide +kernel
  have hdeclare : Algebra.declare y s.types = .ok (body "$3" "$6") _ :=
    eq_ok_of_run' (by decide +kernel)
  obtain ⟨s', hinstantiate⟩ : ∃ s', instantiate y s = .ok (body "$3" "$5") s' :=
    ⟨_, eq_ok_of_run' (by decide +kernel)⟩
  obtain ⟨-, hd⟩ := Algebra.eq_of_declare rfl (fun k hk => (hnew k hk).1) hdeclare
  obtain ⟨-, hs'⟩ := eq_of_instantiate_mono rfl hinstantiate
  have hagree := (declare_agrees_with_instantiate s y rfl hnew).2.2 _ _ _ _ hdeclare hinstantiate
  exact ⟨_, s', hdeclare, by rw [hd]; rfl, hinstantiate, by rw [hs']; rfl, hagree⟩

end Inference

end IndexedLambda
