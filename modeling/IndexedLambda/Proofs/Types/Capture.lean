import IndexedLambda.Proofs.Types.AlphaEquivalence
/-!
# Capture in types

Substitution goes below a `forall` without renaming its binders. Two things follow. A free variable of
the type that is put in becomes bound if a binder has its name, and `Ty.replace_freeVariables` says that
this is the only way in which a substitution loses track of free variables.

`Polytype.specialize` instantiates one binder after the other, each time below the binders that remain.
So a type that has been put in is exposed to the substitutions that follow, and at the end to the
binders that are left. `Monotype.inTurn` is what becomes of a variable that way. To put all types in at
once and without capture is to give the remaining binders fresh names first, which is
`Polytype.atOnce`. The two agree where no type is disturbed after it has been put in
(`Polytype.Undisturbed`), for which it is enough that no type mentions a binder to the right of its own.
-/

namespace IndexedLambda

/-! ## Replacing one variable -/

/-- The variable goes, and the variables of the type that is put in come for it. -/
theorem Body.mem_freeVariables_single {b : Body} {v w : TypeVariable} {m : Monotype} :
    w ∈ (b.subst (.single v m)).freeVariables ↔
      (w ∈ b.freeVariables ∧ w ≠ v) ∨ (v ∈ b.freeVariables ∧ w ∈ m.freeVariables) := by
  rw [mem_freeVariables_subst]
  unfold Monotype.single
  constructor
  · rintro ⟨u, hu, hw⟩
    split at hw
    case isTrue huv =>
      subst huv
      exact .inr ⟨hu, Monotype.mem_freeVariables.mpr hw⟩
    case isFalse huv =>
      obtain rfl := (Monotype.mem_occurrences_var u).mp hw
      exact .inl ⟨hu, huv⟩
  · rintro (⟨hw, hwv⟩ | ⟨hv, hw⟩)
    · exact ⟨w, hw, by rw [if_neg hwv]; simp⟩
    · exact ⟨v, hv, by rw [if_pos rfl]; exact Monotype.mem_freeVariables.mp hw⟩

theorem Polytype.mem_freeVariables_iff {p : Polytype} {w : TypeVariable} :
    w ∈ p.freeVariables ↔ w ∈ p.body.freeVariables ∧ w ∉ p.binders := by
  rw [freeVariables, List.mem_filter, Bool.not_eq_true', List.contains_eq_mem, decide_eq_false_iff_not]

theorem Ty.not_mem_binders_of_mem_freeVariables {t : Ty} {w : TypeVariable}
    (hw : w ∈ t.freeVariables) : w ∉ t.toPolytype.binders := by
  cases t with
  | bare b => exact List.not_mem_nil
  | poly p => exact (Polytype.mem_freeVariables_iff.mp hw).2

/-- A replacement adds the variables of the type that is put in, except those that the type binds. -/
theorem Ty.mem_freeVariables_replace_iff {t : Ty} {v w : TypeVariable} {m : Monotype} :
    w ∈ (t.replace v m).freeVariables ↔ (w ∈ t.freeVariables ∧ w ≠ v) ∨
      (v ∈ t.freeVariables ∧ w ∈ m.freeVariables ∧ w ∉ t.toPolytype.binders) := by
  cases t with
  | bare b =>
      show w ∈ (b.subst (.single v m)).freeVariables ↔
        (w ∈ b.freeVariables ∧ w ≠ v) ∨ (v ∈ b.freeVariables ∧ w ∈ m.freeVariables ∧ w ∉ [])
      rw [Body.mem_freeVariables_single]
      simp
  | poly p =>
      show w ∈ (Ty.replace v m (.poly p)).freeVariables ↔
        (w ∈ p.freeVariables ∧ w ≠ v) ∨ (v ∈ p.freeVariables ∧ w ∈ m.freeVariables ∧ w ∉ p.binders)
      rw [replace, Polytype.mem_freeVariables_iff, Polytype.mem_freeVariables_iff]
      split
      case isTrue hv =>
        show w ∈ p.freeVariables ↔ _
        rw [Polytype.mem_freeVariables_iff]
        grind
      case isFalse hv =>
        show w ∈ Polytype.freeVariables ⟨p.binders, p.body.subst (.single v m)⟩ ↔ _
        rw [Polytype.mem_freeVariables_iff, Body.mem_freeVariables_single]
        grind

/-- **Replacing a variable in a type** takes it out of the free variables, and if it was free, adds those
of the type that is put in, except where a binder captures them. So all of them are added just if the
variable is not free or the type binds none of them. -/
theorem Ty.replace_freeVariables (t : Ty) (v : TypeVariable) (m : Monotype) :
    (∀ w, w ∈ (t.replace v m).freeVariables ↔ (w ∈ t.freeVariables ∧ w ≠ v) ∨
      (v ∈ t.freeVariables ∧ w ∈ m.freeVariables ∧ w ∉ t.toPolytype.binders)) ∧
    ((∀ w, w ∈ (t.replace v m).freeVariables ↔
        (w ∈ t.freeVariables ∧ w ≠ v) ∨ (v ∈ t.freeVariables ∧ w ∈ m.freeVariables)) ↔
      (v ∈ t.freeVariables → ∀ w ∈ t.toPolytype.binders, w ∉ m.freeVariables)) := by
  refine ⟨fun w => mem_freeVariables_replace_iff, ?_⟩
  simp only [mem_freeVariables_replace_iff]
  constructor
  · intro h hv w hbound hw
    -- a bound variable is not free in the result, whichever way it is read
    rcases (h w).mpr (.inr ⟨hv, hw⟩) with ⟨hfree, -⟩ | ⟨-, -, hunbound⟩
    · exact not_mem_binders_of_mem_freeVariables hfree hbound
    · exact hunbound hbound
  · intro h w
    refine or_congr_right (and_congr_right fun hv => and_iff_left_of_imp fun hw hbound => ?_)
    exact h hv w hbound hw

/-- To put `b` in for `a` in `forall b . (a -> b)` leaves no free variable. -/
theorem Ty.replace_captures :
    let a : TypeVariable := ⟨"a", 0⟩
    let b : TypeVariable := ⟨"b", 0⟩
    let t : Ty := .poly ⟨[b], .mono (.arrow (.var a) (.var b))⟩
    t.replace a (.var b) = .poly ⟨[b], .mono (.arrow (.var b) (.var b))⟩ ∧
      t.freeVariables = [a] ∧ (t.replace a (.var b)).freeVariables = [] := by
  intro a b t
  exact ⟨rfl, by decide +kernel, by decide +kernel⟩

/-! ## One substitution after the other -/

theorem zip_append_right {α β : Type} {as : List α} {bs : List β} (h : bs.length ≤ as.length)
    (cs : List β) : as.zip (bs ++ cs) = as.zip bs ++ (as.drop bs.length).zip cs := by
  induction bs generalizing as with
  | nil => simp
  | cons b bs ih =>
      cases as with
      | nil => cases h
      | cons a as =>
          rw [List.cons_append, List.zip_cons_cons, ih (Nat.le_of_succ_le_succ h)]
          rfl

namespace Monotype

/-- What becomes of a variable when the types are put in one after the other: each substitution meets
what the ones before have put in. -/
def inTurn : List (TypeVariable × Monotype) → TypeVariable → Monotype
  | [], v => .var v
  | (b, m) :: pairs, v => (single b m v).subst (inTurn pairs)

variable {pairs before after : List (TypeVariable × Monotype)} {v w : TypeVariable} {m : Monotype}

theorem not_mem_keys_iff : v ∉ pairs.map (·.1) ↔ ∀ q ∈ pairs, (v != q.1) = true := by
  simp only [List.mem_map, not_exists, not_and, bne_iff_ne]
  exact forall₂_congr fun q _ => ne_comm

theorem inTurn_append_of_not_mem (hv : v ∉ before.map (·.1)) :
    inTurn (before ++ after) v = inTurn after v := by
  induction before with
  | nil => rfl
  | cons q before ih =>
      rw [List.map_cons, List.mem_cons, not_or] at hv
      rw [List.cons_append, inTurn, single, if_neg hv.1, subst_var, ih hv.2]

theorem inTurn_of_not_mem (hv : v ∉ pairs.map (·.1)) : inTurn pairs v = .var v := by
  have h : inTurn (pairs ++ []) v = inTurn [] v := inTurn_append_of_not_mem hv
  rwa [List.append_nil] at h

/-- The first type for a variable is put in, and the substitutions that follow go into it. -/
theorem inTurn_append_cons (hv : v ∉ before.map (·.1)) :
    inTurn (before ++ (v, m) :: after) v = m.subst (inTurn after) := by
  rw [inTurn_append_of_not_mem hv, inTurn, single, if_pos rfl]

theorem mem_occurrences_inTurn (hw : w ∈ (inTurn pairs v).occurrences) :
    w = v ∨ ∃ q ∈ pairs, w ∈ q.2.occurrences := by
  induction pairs generalizing v with
  | nil => exact .inl ((mem_occurrences_var v).mp hw)
  | cons q pairs ih =>
      obtain ⟨u, hu, hw⟩ := mem_occurrences_subst.mp hw
      rcases ih hw with rfl | ⟨q', hq', hw⟩
      · rw [single] at hu
        split at hu
        · exact .inr ⟨q, List.mem_cons_self, hu⟩
        · exact .inl ((mem_occurrences_var v).mp hu)
      · exact .inr ⟨q', List.mem_cons_of_mem q hq', hw⟩

theorem assign_append_cons (hv : v ∉ before.map (·.1)) : assign (before ++ (v, m) :: after) v = m := by
  have hlookup : (before ++ (v, m) :: after).lookup v = some m :=
    List.lookup_eq_some_iff.mpr ⟨before, after, rfl, not_mem_keys_iff.mp hv⟩
  rw [assign, hlookup]
  rfl

theorem assign_append_of_not_mem (hv : v ∉ before.map (·.1)) :
    assign (before ++ after) v = assign after v := by
  have hlookup : before.lookup v = none := List.lookup_eq_none_iff.mpr (not_mem_keys_iff.mp hv)
  rw [assign, assign, List.lookup_append, hlookup]
  rfl

/-- Renaming to other names gives a variable only where it was before and is not renamed. -/
theorem subst_renaming_eq_var_iff {vars fresh : List TypeVariable} {t : Monotype}
    (hlength : fresh.length = vars.length) (hw : w ∉ fresh) :
    t.subst (assign (vars.zip (fresh.map .var))) = .var w ↔ t = .var w ∧ w ∉ vars := by
  have hrename (x : TypeVariable) :
      assign (vars.zip (fresh.map .var)) x = .var (fresh.getD (vars.idxOf x) x) := by
    rw [assign_zip (by rw [List.length_map, hlength]), List.getD_map]
  have hstays {x : TypeVariable} (hx : x ∉ vars) : fresh.getD (vars.idxOf x) x = x := by
    rw [List.idxOf_eq_length hx, List.getD_eq_default _ _ (Nat.le_of_eq hlength)]
  constructor
  · intro h
    cases t with
    | var x =>
        rw [subst_var, hrename, var.injEq] at h
        by_cases hx : x ∈ vars
        · have hlt : vars.idxOf x < fresh.length := hlength ▸ List.idxOf_lt_length_iff.mpr hx
          rw [List.getD_eq_getElem _ _ hlt] at h
          exact absurd (h ▸ List.getElem_mem hlt) hw
        · rw [hstays hx] at h
          subst h
          exact ⟨rfl, hx⟩
    | const c => cases h
    | app head params => rw [subst_app] at h; cases h
    | inst head params index => rw [subst_inst] at h; cases h
  · rintro ⟨rfl, hvars⟩
    rw [subst_var, hrename, hstays hvars]

/-- Where putting in one after the other, and renaming at the end, is the same for a variable as putting
in at once, the type for it meets no substitution and no renaming that changes it. -/
theorem of_inTurn_renamed {vars fresh : List TypeVariable} (hlength : fresh.length = vars.length)
    (hfresh : ∀ q ∈ pairs, ∀ w ∈ q.2.occurrences, w ∉ fresh)
    (h : ((inTurn pairs v).subst (assign (vars.zip (fresh.map .var)))).StrictEq
      (assign (pairs ++ vars.zip (fresh.map .var)) v)) {before after : List (TypeVariable × Monotype)}
    {m : Monotype} (hpairs : pairs = before ++ (v, m) :: after) (hv : v ∉ before.map (·.1)) :
    ∀ w ∈ m.freeVariables, w ∉ vars ∧ inTurn after w = .var w := by
  intro w hw
  subst hpairs
  rw [List.append_assoc, List.cons_append, inTurn_append_cons hv, assign_append_cons hv, subst_subst]
    at h
  -- the type comes out as it went in, so each of its variables does
  have hself : m.subst .var = m := subst_eq_self fun _ _ => rfl
  have hkept := StrictEq.of_subst (h.trans (.of_eq hself.symm)) w (mem_freeVariables.mp hw)
  have hnew := hfresh (v, m) (by simp) w (mem_freeVariables.mp hw)
  exact ((subst_renaming_eq_var_iff hlength hnew).mp (strictEq_var_iff.mp hkept)).symm

/-- And the other way round. -/
theorem inTurn_renamed {vars fresh : List TypeVariable} (hlength : fresh.length = vars.length)
    (hfresh : ∀ q ∈ pairs, ∀ w ∈ q.2.occurrences, w ∉ fresh)
    (h : ∀ before m after, pairs = before ++ (v, m) :: after → v ∉ before.map (·.1) →
      ∀ w ∈ m.freeVariables, w ∉ vars ∧ inTurn after w = .var w) :
    (inTurn pairs v).subst (assign (vars.zip (fresh.map .var))) =
      assign (pairs ++ vars.zip (fresh.map .var)) v := by
  cases hlookup : pairs.lookup v with
  | none =>
      have hv : v ∉ pairs.map (·.1) := not_mem_keys_iff.mpr (List.lookup_eq_none_iff.mp hlookup)
      rw [inTurn_of_not_mem hv, assign_append_of_not_mem hv, subst_var]
  | some m =>
      obtain ⟨before, after, rfl, hbefore⟩ := List.lookup_eq_some_iff.mp hlookup
      have hv : v ∉ before.map (·.1) := not_mem_keys_iff.mpr hbefore
      rw [List.append_assoc, List.cons_append, inTurn_append_cons hv, assign_append_cons hv,
        subst_subst]
      refine subst_eq_self fun w hw => ?_
      have hnew := hfresh (v, m) (by simp) w hw
      have hkept := h before m after rfl hv w (mem_freeVariables.mpr hw)
      exact (subst_renaming_eq_var_iff hlength hnew).mpr hkept.symm

end Monotype

/-! ## Specialization -/

namespace Polytype

variable {p : Polytype} {types : List Monotype} {fresh : List TypeVariable}

/-- Names for the binders that remain: distinct, and none that the body or a type mentions. -/
structure FreshFor (p : Polytype) (types : List Monotype) (fresh : List TypeVariable) : Prop where
  length : types.length + fresh.length = p.binders.length
  nodup : fresh.Nodup
  body : ∀ v ∈ fresh, v ∉ p.body.freeVariables
  types : ∀ v ∈ fresh, ∀ m ∈ types, v ∉ m.freeVariables

/-- The leading binders replaced at once, below remaining binders with the given names. -/
def atOnce (p : Polytype) (types : List Monotype) (fresh : List TypeVariable) : Polytype :=
  ⟨fresh, p.bodyAt (types ++ fresh.map .var)⟩

/-- The leading binders replaced one after the other, below those that remain. -/
def oneByOne (p : Polytype) (types : List Monotype) : Polytype :=
  ⟨p.binders.drop types.length, p.body.subst (.inTurn (p.binders.zip types))⟩

/-- A type that is put in for a variable of the body mentions no binder that remains, and nothing that
the types after it change. -/
def Undisturbed (p : Polytype) (types : List Monotype) : Prop :=
  ∀ v ∈ p.body.freeVariables, ∀ before m after, p.binders.zip types = before ++ (v, m) :: after →
    v ∉ before.map (·.1) →
    ∀ w ∈ m.freeVariables, w ∉ p.binders.drop types.length ∧ Monotype.inTurn after w = .var w

theorem toPolytype_toType (p : Polytype) : p.toType.toPolytype = p := by
  obtain ⟨binders, body⟩ := p
  cases binders with
  | nil => rfl
  | cons v rest => rfl

theorem oneByOne_nil (p : Polytype) : p.oneByOne [] = p := by
  show (⟨p.binders.drop 0, p.body.subst (.inTurn (p.binders.zip []))⟩ : Polytype) = p
  rw [List.zip_nil_right, List.drop_zero]
  exact congrArg (Polytype.mk p.binders) p.body.subst_var

theorem oneByOne_cons (v : TypeVariable) (rest : List TypeVariable) (body : Body) (m : Monotype)
    (types : List Monotype) :
    oneByOne ⟨v :: rest, body⟩ (m :: types) = oneByOne ⟨rest, body.subst (.single v m)⟩ types := by
  rw [oneByOne, oneByOne, Body.subst_subst]
  rfl

/-- To instantiate again and again is to put in one type after the other. -/
theorem foldl_instantiate {step : Ty → Monotype → Ty}
    (hstep : ∀ q m, step (.poly q) m = q.instantiate m)
    (hnamed : ∀ v ∈ p.binders, v.isWildcard = false) (hcount : types.length ≤ p.binders.length) :
    types.foldl step p.toType = (p.oneByOne types).toType := by
  induction types generalizing p with
  | nil => rw [List.foldl_nil, oneByOne_nil]
  | cons m types ih =>
      obtain ⟨binders, body⟩ := p
      cases binders with
      | nil => cases hcount
      | cons v rest =>
          have hv : v.isWildcard = false := hnamed v List.mem_cons_self
          have hinstantiate : instantiate ⟨v :: rest, body⟩ m =
              toType ⟨rest, body.subst (.single v m)⟩ := by
            show toType ⟨rest, body.instantiate v m⟩ = _
            rw [Body.instantiate, if_neg (by rw [hv]; exact Bool.false_ne_true)]
          show types.foldl step (step (.poly ⟨v :: rest, body⟩) m) = _
          rw [hstep, hinstantiate, oneByOne_cons]
          exact ih (fun w hw => hnamed w (List.mem_cons_of_mem v hw)) (Nat.le_of_succ_le_succ hcount)

theorem specialize_eq_oneByOne (hnamed : ∀ v ∈ p.binders, v.isWildcard = false)
    (hcount : types.length ≤ p.binders.length) :
    p.specialize types = .ok (if types = [] then .poly p else (p.oneByOne types).toType) := by
  rw [specialize, if_pos hcount]
  cases types with
  | nil => rfl
  | cons m types =>
      obtain ⟨binders, body⟩ := p
      cases binders with
      | nil => cases hcount
      | cons v rest =>
          rw [if_neg (List.cons_ne_nil m types)]
          refine congrArg Except.ok (foldl_instantiate ?_ hnamed hcount)
          exact fun _ _ => rfl

/-- A type mentions no name that is fresh for it. -/
theorem FreshFor.not_mem (hfresh : p.FreshFor types fresh) :
    ∀ q ∈ p.binders.zip types, ∀ w ∈ q.2.occurrences, w ∉ fresh :=
  fun q hq w hw hmem => hfresh.types w hmem q.2 (List.of_mem_zip hq).2 (Monotype.mem_freeVariables.mpr hw)

theorem FreshFor.unused_oneByOne (hfresh : p.FreshFor types fresh) :
    (p.oneByOne types).Unused fresh := by
  refine ⟨?_, hfresh.nodup, fun w hw hmem => ?_⟩
  · rw [oneByOne, List.length_drop, ← hfresh.length, Nat.add_sub_cancel_left]
  · obtain ⟨v, hv, hwv⟩ := Body.mem_freeVariables_subst.mp hmem
    rcases Monotype.mem_occurrences_inTurn hwv with rfl | ⟨q, hq, hwq⟩
    · exact hfresh.body w hw hv
    · exact hfresh.not_mem q hq w hwq hw

/-- The two bodies below the fresh names are the same just if no type is disturbed, and it is all one
whether they are compared strictly or literally. -/
theorem FreshFor.bodyAt_iff (hfresh : p.FreshFor types fresh) :
    (((p.oneByOne types).bodyAt (fresh.map .var)).StrictEq (p.bodyAt (types ++ fresh.map .var)) ↔
      p.Undisturbed types) ∧
    ((p.oneByOne types).bodyAt (fresh.map .var) = p.bodyAt (types ++ fresh.map .var) ↔
      p.Undisturbed types) := by
  have hrest : fresh.length = (p.binders.drop types.length).length := hfresh.unused_oneByOne.length
  have hzip : p.binders.zip (types ++ fresh.map .var) =
      p.binders.zip types ++ (p.binders.drop types.length).zip (fresh.map .var) :=
    zip_append_right (hfresh.length ▸ Nat.le_add_right _ _) _
  rw [bodyAt, bodyAt, hzip, oneByOne, Body.subst_subst]
  have hstrict (h : (p.body.subst fun v => (Monotype.inTurn (p.binders.zip types) v).subst
      (.assign ((p.binders.drop types.length).zip (fresh.map .var)))).StrictEq (p.body.subst
      (.assign (p.binders.zip types ++ (p.binders.drop types.length).zip (fresh.map .var))))) :
      p.Undisturbed types := fun v hv _ _ _ =>
    Monotype.of_inTurn_renamed hrest hfresh.not_mem (Body.StrictEq.of_subst h v hv)
  have hequal (h : p.Undisturbed types) := Body.subst_congr (b := p.body) fun v hv =>
    Monotype.inTurn_renamed hrest hfresh.not_mem (h v hv)
  exact ⟨⟨hstrict, fun h => congrArg Body.erased (hequal h)⟩,
    ⟨fun h => hstrict (congrArg Body.erased h), hequal⟩⟩

theorem oneByOne_alphaEq_iff (hfresh : p.FreshFor types fresh) :
    (p.oneByOne types == p.atOnce types fresh) = true ↔ p.Undisturbed types := by
  rw [atOnce, alphaEq_renamed_iff hfresh.unused_oneByOne, hfresh.bodyAt_iff.1]

/-- With a type for every binder, nothing is left to rename. -/
theorem replaceAll_eq_oneByOne_iff (hlength : types.length = p.binders.length) :
    p.body.replaceAll p.binders types = .ok (p.oneByOne types).body ↔ p.Undisturbed types := by
  have hfresh : p.FreshFor types [] := ⟨hlength, .nil, by simp, by simp⟩
  have hbody : (p.oneByOne types).bodyAt [] = (p.oneByOne types).body := by
    rw [bodyAt, List.zip_nil_right]
    exact Body.subst_var _
  rw [← hfresh.bodyAt_iff.2, List.map_nil, List.append_nil, hbody, Body.replaceAll,
    if_pos hlength.symm, Except.ok.injEq, eq_comm]
  rfl

/-- It is enough that no type mentions a binder to the right of its own. -/
theorem undisturbed_of_outer
    (h : ∀ i m, types[i]? = some m → ∀ w ∈ m.freeVariables, w ∉ p.binders.drop (i + 1)) :
    p.Undisturbed types := by
  intro v _ before m after hzip _ w hw
  have hplace : (p.binders.zip types)[before.length]? = some (v, m) := by
    rw [hzip, List.getElem?_append_right (Nat.le_refl _), Nat.sub_self]
    rfl
  have hm : types[before.length]? = some m := (List.getElem?_zip_eq_some.mp hplace).2
  have hlater : w ∉ p.binders.drop (before.length + 1) := h before.length m hm w hw
  constructor
  · intro hrest
    have hlt : before.length < types.length := (List.getElem?_eq_some_iff.mp hm).1
    exact hlater (List.drop_subset_drop_left p.binders hlt hrest)
  · refine Monotype.inTurn_of_not_mem fun hafter => hlater ?_
    have hdrop : (p.binders.drop (before.length + 1)).zip (types.drop (before.length + 1)) = after := by
      rw [List.zip, ← List.drop_zipWith]
      show (p.binders.zip types).drop (before.length + 1) = after
      simp [hzip]
    obtain ⟨q, hq, rfl⟩ := List.mem_map.mp hafter
    rw [← hdrop] at hq
    exact (List.of_mem_zip hq).1

theorem exists_freshFor (hcount : types.length ≤ p.binders.length) :
    ∃ fresh, p.FreshFor types fresh := by
  let taken := p.body.freeVariables ++ types.flatMap (·.freeVariables)
  refine ⟨placeholderNames taken (p.binders.length - types.length), ?_, nodup_placeholderNames _ _,
    fun v hv hbody => ?_, fun v hv m hm hvm => ?_⟩
  · rw [length_placeholderNames]
    omega
  · exact not_mem_of_mem_placeholderNames hv (List.mem_append_left _ hbody)
  · exact not_mem_of_mem_placeholderNames hv
      (List.mem_append_right _ (List.mem_flatMap.mpr ⟨m, hm, hvm⟩))

/-- **Specialization** puts the types in one after the other. It comes to the same as putting them in at
once, below remaining binders with fresh names, just if no type is disturbed after it has been put in;
for that it is enough that no type mentions a binder to the right of its own. With a type for every
binder the body is left, with all of them replaced at once under the same condition. -/
theorem specialize_simultaneous_iff (hnamed : ∀ v ∈ p.binders, v.isWildcard = false)
    (hcount : types.length ≤ p.binders.length) :
    ∃ ty, p.specialize types = .ok ty ∧ (∃ fresh, p.FreshFor types fresh) ∧
      (∀ fresh, p.FreshFor types fresh →
        ((ty.toPolytype == p.atOnce types fresh) = true ↔ p.Undisturbed types)) ∧
      (types ≠ [] → types.length = p.binders.length → ∃ b, ty = .bare b ∧
        (p.body.replaceAll p.binders types = .ok b ↔ p.Undisturbed types)) ∧
      ((∀ i m, types[i]? = some m → ∀ w ∈ m.freeVariables, w ∉ p.binders.drop (i + 1)) →
        p.Undisturbed types) := by
  refine ⟨_, specialize_eq_oneByOne hnamed hcount, exists_freshFor hcount, fun fresh hfresh => ?_,
    fun hne hlength => ⟨(p.oneByOne types).body, ?_, replaceAll_eq_oneByOne_iff hlength⟩,
    undisturbed_of_outer⟩
  · have hpoly : (if types = [] then Ty.poly p else (p.oneByOne types).toType).toPolytype =
        p.oneByOne types := by
      split
      case isTrue hnil => rw [hnil, oneByOne_nil]; rfl
      case isFalse => exact toPolytype_toType _
    rw [hpoly, oneByOne_alphaEq_iff hfresh]
  · rw [if_neg hne, oneByOne, hlength, List.drop_length]
    rfl

/-- `forall a b c . (a -> (b -> c))` at `d` and `(a -> a)`: the second type mentions the binder that has
been instantiated before. -/
theorem specialize_simultaneous_of_earlier_binder :
    let v (name : String) : TypeVariable := ⟨name, 0⟩
    let p : Polytype := ⟨[v "a", v "b", v "c"],
      .mono (.arrow (.var (v "a")) (.arrow (.var (v "b")) (.var (v "c"))))⟩
    let types : List Monotype := [.var (v "d"), .arrow (.var (v "a")) (.var (v "a"))]
    (∀ v ∈ p.binders, v.isWildcard = false) ∧ types.length ≤ p.binders.length ∧
      p.FreshFor types [v "e"] ∧ ∃ ty, p.specialize types = .ok ty ∧
        (ty.toPolytype == p.atOnce types [v "e"]) = true := by
  intro v p types
  have hnamed : ∀ v ∈ p.binders, v.isWildcard = false := by decide +kernel
  have hcount : types.length ≤ p.binders.length := by decide
  have hfresh : p.FreshFor types [v "e"] :=
    ⟨rfl, by decide +kernel, by decide +kernel, by decide +kernel⟩
  obtain ⟨ty, hty, -, hiff, -, houter⟩ := specialize_simultaneous_iff hnamed hcount
  refine ⟨hnamed, hcount, hfresh, ty, hty, (hiff _ hfresh).mpr (houter fun i m hm => ?_)⟩
  rcases i with _ | _ | i
  · cases hm
    decide +kernel
  · cases hm
    decide +kernel
  · cases hm

/-- `forall a b . (a -> b)` at `b` and `Int` is `(Int -> Int)`: the `b` that has been put in for `a` is
replaced as well. Both at once give `(b -> Int)`. -/
theorem specialize_exposes_types :
    let a : TypeVariable := ⟨"a", 0⟩
    let b : TypeVariable := ⟨"b", 0⟩
    let int : Monotype := .const (.plain "Int")
    let body : Body := .mono (.arrow (.var a) (.var b))
    specialize ⟨[a, b], body⟩ [.var b, int] = .ok (.mono (.arrow int int)) ∧
      body.replaceAll [a, b] [.var b, int] = .ok (.mono (.arrow (.var b) int)) := by
  intro a b int body
  exact ⟨rfl, rfl⟩

end Polytype

end IndexedLambda
