import IndexedLambda.Proofs.Term.Displacement
/-!
# Well-formed terms

A term is well formed when its abstractions bind at least one variable and number their binders, when
an occurrence that points to a binder carries its name, and when instructions and recursive blocks have
the sizes they must have. Terms built by the constructors are well formed, and the operations that build
new terms out of old ones keep them so.

Further disciplines that evaluation needs: no occurrence is unassigned, and no instruction occurs.
`Discipline.Portable` collects what all of them have in common: an occurrence that is allowed stays
allowed when binders are put around it or taken away, provided its depth is moved accordingly.
-/

namespace IndexedLambda

namespace Discipline

/-- Binder `i` of `k ≥ 1` carries depth `k - i`, a depth within the scope carries the name it points to,
an instruction holds at most as many arguments as its arity, a recursive block has a definition. -/
def wellFormed : Discipline where
  occurrence scope v := 0 < v.depth → v.depth ≤ scope.length → scope[v.depth - 1]? = some v.name
  binders _ vs := vs ≠ [] ∧ vs = Term.numbered (vs.map (·.name))
  arguments head n := n ≤ head.arity
  definitions n := 0 < n

/-- No occurrence is unassigned. -/
def assigned : Discipline where
  occurrence _ v := v.depth ≠ 0
  binders _ _ := True
  arguments _ _ := True
  definitions _ := True

/-- No instruction occurs. -/
def instructionFree : Discipline where
  occurrence _ _ := True
  binders _ _ := True
  arguments _ _ := False
  definitions _ := True

instance : wellFormed.Decides where
  occurrence scope v := inferInstanceAs (Decidable (0 < v.depth → v.depth ≤ scope.length →
    scope[v.depth - 1]? = some v.name))
  binders _ vs := inferInstanceAs (Decidable (vs ≠ [] ∧ vs = Term.numbered (vs.map (·.name))))
  arguments head n := inferInstanceAs (Decidable (n ≤ head.arity))
  definitions n := inferInstanceAs (Decidable (0 < n))

instance : assigned.Decides where
  occurrence _ v := inferInstanceAs (Decidable (v.depth ≠ 0))
  binders _ _ := inferInstanceAs (Decidable True)
  arguments _ _ := inferInstanceAs (Decidable True)
  definitions _ := inferInstanceAs (Decidable True)

instance : instructionFree.Decides where
  occurrence _ _ := inferInstanceAs (Decidable True)
  binders _ _ := inferInstanceAs (Decidable True)
  arguments _ _ := inferInstanceAs (Decidable False)
  definitions _ := inferInstanceAs (Decidable True)

/-- The demands follow an occurrence that is moved into or out of the scope of a binder, and those on
binders do not look at the scope and hold for the binders that are left when the first is gone. -/
structure Portable (d : Discipline) : Prop where
  insert : ∀ {inner between outer v}, d.occurrence (inner ++ outer) v →
    d.occurrence (inner ++ (between ++ outer)) (v.raiseAbove inner.length between.length)
  below : ∀ {inner x outer v}, d.occurrence (inner ++ x :: outer) v → v.depth ≤ inner.length →
    d.occurrence (inner ++ outer) v
  above : ∀ {inner x outer v}, d.occurrence (inner ++ x :: outer) v → inner.length + 1 < v.depth →
    d.occurrence (inner ++ outer) ⟨v.name, v.depth - 1⟩
  binders : ∀ {scope scope' vs}, d.binders scope vs → d.binders scope' vs
  rest : ∀ {scope v vs}, d.binders scope (v :: vs) → vs ≠ [] → d.binders scope vs

theorem Portable.and {d e : Discipline} (hd : d.Portable) (he : e.Portable) : (d.and e).Portable where
  insert h := ⟨hd.insert h.1, he.insert h.2⟩
  below h hle := ⟨hd.below h.1 hle, he.below h.2 hle⟩
  above h hlt := ⟨hd.above h.1 hlt, he.above h.2 hlt⟩
  binders h := ⟨hd.binders h.1, he.binders h.2⟩
  rest h hne := ⟨hd.rest h.1 hne, he.rest h.2 hne⟩

theorem wellFormed_portable : wellFormed.Portable where
  insert {inner between outer v} h := by
    by_cases hle : v.depth ≤ inner.length
    · rw [Variable.raiseAbove_of_le hle]
      intro hpos _
      have hname := h hpos (by rw [List.length_append]; omega)
      rw [List.getElem?_append_left (by omega)] at hname ⊢
      exact hname
    · rw [Variable.raiseAbove_of_lt (by omega)]
      intro _ hscope
      have hname := h (by omega) (by simp only [List.length_append] at hscope ⊢; omega)
      rw [List.getElem?_append_right (by omega)] at hname
      rw [List.getElem?_append_right (by dsimp only; omega),
        List.getElem?_append_right (by dsimp only; omega), ← hname]
      congr 1
      dsimp only
      omega
  below {inner x outer v} h hle hpos _ := by
    have hname := h hpos (by rw [List.length_append]; omega)
    rw [List.getElem?_append_left (by omega)] at hname ⊢
    exact hname
  above {inner x outer v} h hlt _ hscope := by
    have hname := h (by omega) (by simp only [List.length_append, List.length_cons] at hscope ⊢; omega)
    rw [List.getElem?_append_right (by omega), List.getElem?_cons] at hname
    rw [if_neg (by omega)] at hname
    rw [List.getElem?_append_right (by dsimp only; omega), ← hname]
    congr 1
    dsimp only
    omega
  binders h := h
  rest h hne := ⟨hne, (List.cons.inj h.2).2⟩

theorem assigned_portable : assigned.Portable where
  insert {inner between outer v} h := by
    show (v.raiseAbove _ _).depth ≠ 0
    have hv : v.depth ≠ 0 := h
    unfold Variable.raiseAbove
    split
    · exact hv
    · dsimp only; omega
  below h _ := h
  above {_ _ _ v} _ hlt := by show v.depth - 1 ≠ 0; omega
  binders h := h
  rest h _ := h

theorem instructionFree_portable : instructionFree.Portable where
  insert h := h
  below h _ := h
  above h _ := h
  binders h := h
  rest h _ := h

theorem addressable_portable : addressable.Portable where
  insert h := h
  below h _ := h
  above h _ := h
  binders h := h
  rest {_ v vs} h _ := by
    have hlength : (v :: vs).length < signedRange := h
    exact Nat.lt_of_succ_lt hlength

end Discipline

namespace Term

/-- Well formed on its own, outside all binders. -/
def WellFormed (t : Term) : Prop := t.Respects .wellFormed []

/-- No occurrence is unassigned. -/
def Assigned (t : Term) : Prop := t.Respects .assigned []

/-- No instruction occurs. -/
def InstructionFree (t : Term) : Prop := t.Respects .instructionFree []

/-- Every list of binders is short enough to be counted by a nonnegative signed word. -/
def Addressable (t : Term) : Prop := t.Respects .addressable []

instance (t : Term) : Decidable t.WellFormed := inferInstanceAs (Decidable (t.Respects .wellFormed []))

instance (t : Term) : Decidable t.Assigned := inferInstanceAs (Decidable (t.Respects .assigned []))

instance (t : Term) : Decidable t.InstructionFree :=
  inferInstanceAs (Decidable (t.Respects .instructionFree []))

instance (t : Term) : Decidable t.Addressable :=
  inferInstanceAs (Decidable (t.Respects .addressable []))

variable {d : Discipline} {scope : List String}

/-- A term may be put under more binders. -/
theorem Respects.raise {t : Term} (hd : d.Portable) (between : List String)
    (ht : t.Respects d scope) : (t.raise between.length).Respects d (between ++ scope) := by
  refine Respects.rewrite ht ⟨fun inner v hv => ?_, fun _ _ h => hd.binders h, fun _ _ h => h,
    fun _ h => h⟩
  rw [respects_var, Nat.zero_add]
  exact hd.insert hv

theorem Respects.replacing {t u : Term} (hd : d.Portable) (v : Variable) (ht : t.Respects d scope)
    (hu : u.Respects d scope) : (t.rewrite (replacing v u) 0).Respects d scope := by
  refine Respects.rewrite ht ⟨fun inner w hw => ?_, fun _ _ h => h, fun _ _ h => h, fun _ h => h⟩
  unfold Term.replacing
  split
  · exact hu.raise hd inner
  · exact hw

/-! ## Building terms -/

@[simp] theorem length_numbered (names : List String) : (numbered names).length = names.length := by
  induction names with
  | nil => rfl
  | cons x xs ih => simp [numbered, ih]

@[simp] theorem map_name_numbered (names : List String) : (numbered names).map (·.name) = names := by
  induction names with
  | nil => rfl
  | cons x xs ih => simp [numbered, ih]

theorem numbered_wellFormed {names : List String} (hne : names ≠ []) :
    Discipline.wellFormed.binders scope (numbered names) := by
  refine ⟨fun h => hne ?_, by rw [map_name_numbered]⟩
  rw [← map_name_numbered names, h]
  rfl

theorem under_numbered (names : List String) :
    under (numbered names) scope = names.reverse ++ scope := by
  rw [under, map_name_numbered]

/-- Terms that the constructors build out of raw variables. -/
inductive Built : Term → Prop
  | var (v : Variable) : Built (.var v)
  | const (c : String) : Built (.const c)
  | app {l r : Term} : Built l → Built r → Built (.app l r)
  | list {elems : List Term} : (∀ t ∈ elems, Built t) → Built (.list elems)
  | instr {head : InstructionHead} {args : List Term} {t : Term} :
      (∀ a ∈ args, Built a) → ofInstruction head args = .ok t → Built t
  | define {a b : Term} (form : LetForm) (x : String) : Built a → Built b → Built (.define form x a b)
  | recur {defs : List (String × Term)} {b t : Term} :
      (∀ p ∈ defs, Built p.2) → Built b → ofDefinitions defs b = .ok t → Built t
  | bind {t f : Term} {names : List String} : Built t → t.bind names = .ok f → Built f

theorem ofInstruction_eq_ok {head : InstructionHead} {args : List Term} {t : Term}
    (h : ofInstruction head args = .ok t) : args.length ≤ head.arity ∧ t = .instr head args := by
  unfold ofInstruction at h
  split at h
  · cases h; exact ⟨‹_›, rfl⟩
  · cases h

theorem ofDefinitions_eq_ok {defs : List (String × Term)} {b t : Term}
    (h : ofDefinitions defs b = .ok t) : defs ≠ [] ∧ t = .recur defs b := by
  unfold ofDefinitions at h
  split at h
  · cases h
  · cases h; exact ⟨fun hnil => ‹¬_› (by rw [hnil]; rfl), rfl⟩

end Term

/-! ## Binding -/

theorem binderDepth?_eq_some {x : String} {names : List String} {depth : Nat}
    (h : binderDepth? x names = some depth) :
    0 < depth ∧ depth ≤ names.length ∧ names.reverse[depth - 1]? = some x := by
  induction names with
  | nil => cases h
  | cons y ys ih =>
      rw [binderDepth?, Option.or_eq_some_iff] at h
      rw [List.reverse_cons, List.length_cons]
      rcases h with h | ⟨-, h⟩
      · obtain ⟨hpos, hle, hname⟩ := ih h
        refine ⟨hpos, by omega, ?_⟩
        rw [List.getElem?_append_left (by rw [List.length_reverse]; omega), hname]
      · split at h
        case isTrue hy =>
          cases h
          refine ⟨by omega, Nat.le_refl _, ?_⟩
          rw [List.getElem?_append_right (by simp), hy]
          simp
        case isFalse => cases h

/-- The occurrence that `capture` makes, in unbounded numbers. -/
def Variable.captured (names : List String) (j : Nat) (v : Variable) : Variable :=
  if v.depth ≠ 0 ∧ v.depth ≤ j then v
  else
    match binderDepth? v.name names with
    | some depth => ⟨v.name, j + depth⟩
    | none =>
      if v.depth = 0 then ⟨v.name, j + names.length + 1⟩ else ⟨v.name, v.depth + names.length⟩

theorem Variable.capture_atMost (names : List String) (j : Nat) (v : Variable) :
    Verdict.atMost.Holds (v.capture names j) (v.captured names j) := by
  unfold Variable.capture Variable.captured
  split
  · exact Verdict.atMost.ok v
  · cases binderDepth? v.name names with
    | some depth => exact Verdict.atMost.bind (addWord_atMost _ _) (Verdict.atMost.ok _)
    | none =>
        dsimp only
        split
        · exact Verdict.atMost.bind (addWord_atMost _ _)
            (Verdict.atMost.bind (addWord_atMost _ _) (Verdict.atMost.ok _))
        · exact Verdict.atMost.bind (addWord_atMost _ _) (Verdict.atMost.ok _)

/-- A captured occurrence is assigned, and it points to a binder of its name if it points to one. -/
theorem Variable.captured_wellFormed {names inner : List String} {v : Variable}
    (hv : Discipline.wellFormed.occurrence inner v) :
    (Discipline.wellFormed.and .assigned).occurrence (inner ++ names.reverse)
      (v.captured names inner.length) := by
  unfold Variable.captured
  split
  case isTrue hbound =>
    refine ⟨fun hpos _ => ?_, hbound.1⟩
    rw [List.getElem?_append_left (by omega)]
    exact hv hpos hbound.2
  case isFalse hfree =>
    split
    case h_1 depth hdepth =>
      obtain ⟨hpos, -, hname⟩ := binderDepth?_eq_some hdepth
      refine ⟨fun _ _ => ?_, by show inner.length + depth ≠ 0; omega⟩
      rw [List.getElem?_append_right (by dsimp only; omega), ← hname]
      congr 1
      dsimp only
      omega
    case h_2 =>
      -- past all binders: nothing to point to
      split
      all_goals
        refine ⟨fun _ hle => ?_, by show _ + _ ≠ 0; omega⟩
        rw [List.length_append, List.length_reverse] at hle
        dsimp only at hle
        omega

namespace Term

variable {scope : List String}

/-- The body that binding makes, in unbounded numbers. -/
def captured (names : List String) (t : Term) : Term :=
  t.rewrite (fun j v => .var (v.captured names j)) 0

theorem capture_atMost (names : List String) (t : Term) :
    Verdict.atMost.Holds (t.capture names 0) (t.captured names) := by
  refine traverse_agrees .atMost (fun j => j) _ (fun _ _ _ => addWord_atMost _ _)
    (fun inner v _ => ?_) (respects_any [] t)
  exact Verdict.atMost.bind (v.capture_atMost names inner.length) (Verdict.atMost.ok _)

theorem bind_eq_ok_iff {names : List String} {t f : Term} : t.bind names = .ok f ↔
    names ≠ [] ∧ ∃ body, t.capture names 0 = .ok body ∧ f = .abs (numbered names) body := by
  unfold Term.bind
  cases names with
  | nil => simp
  | cons x xs =>
      refine bind_eq_ok.trans ⟨?_, ?_⟩
      · rintro ⟨body, hbody, hf⟩
        cases hf
        exact ⟨List.cons_ne_nil _ _, body, hbody, rfl⟩
      · rintro ⟨-, body, hbody, rfl⟩
        exact ⟨body, hbody, rfl⟩

theorem WellFormed.captured {names : List String} {t : Term} (ht : t.WellFormed) (hne : names ≠ []) :
    (Term.abs (numbered names) (t.captured names)).WellFormed ∧
      (Term.abs (numbered names) (t.captured names)).Assigned := by
  have hbody : (t.captured names).Respects (Discipline.wellFormed.and .assigned) names.reverse := by
    refine Respects.rewrite ht ⟨fun inner v hv => ?_, fun _ _ h => ⟨h, trivial⟩,
      fun _ _ h => ⟨h, trivial⟩, fun _ h => ⟨h, trivial⟩⟩
    rw [List.append_nil] at hv
    exact v.captured_wellFormed hv
  have hunder : under (numbered names) [] = names.reverse := by rw [under_numbered, List.append_nil]
  rw [← hunder, respects_and] at hbody
  exact ⟨respects_abs.mpr ⟨numbered_wellFormed hne, hbody.1⟩, respects_abs.mpr ⟨trivial, hbody.2⟩⟩

theorem WellFormed.bind {names : List String} {t f : Term} (ht : t.WellFormed)
    (h : t.bind names = .ok f) : f.WellFormed ∧ f.Assigned := by
  obtain ⟨hne, body, hbody, rfl⟩ := bind_eq_ok_iff.mp h
  rw [capture_atMost names t body hbody]
  exact ht.captured hne

/-- Outside all binders every occurrence is well formed. -/
theorem var_wellFormed (v : Variable) : (Term.var v).WellFormed :=
  fun hpos hle => absurd hle (Nat.not_le.mpr hpos)

theorem Built.wellFormed {t : Term} (ht : t.Built) : t.WellFormed := by
  induction ht with
  | var v => exact var_wellFormed v
  | const c => exact respects_const
  | app _ _ ihl ihr => exact respects_app.mpr ⟨ihl, ihr⟩
  | list _ ih => exact respects_list.mpr ih
  | instr _ h ih =>
      obtain ⟨hlength, rfl⟩ := ofInstruction_eq_ok h
      exact respects_instr.mpr ⟨hlength, ih⟩
  | define form x _ _ iha ihb => exact respects_define.mpr ⟨iha, ihb⟩
  | recur _ _ h ihd ihb =>
      obtain ⟨hne, rfl⟩ := ofDefinitions_eq_ok h
      exact respects_recur.mpr ⟨List.length_pos_iff.mpr hne, ihd, ihb⟩
  | bind _ h ih => exact (WellFormed.bind ih h).1

/-! ## Moving and replacing -/

theorem WellFormed.shift {s : Shift} {t u : Term} (ht : t.WellFormed) (hdelta : 0 ≤ s.delta)
    (h : t.shift s = .ok u) : u.WellFormed := by
  obtain ⟨threshold, delta⟩ := s
  obtain ⟨n, rfl⟩ := Int.eq_ofNat_of_zero_le hdelta
  obtain rfl := shift_raise_atMost threshold n t u h
  refine Respects.rewrite ht ⟨fun inner v hv => ?_, fun _ _ h => h, fun _ _ h => h, fun _ h => h⟩
  rw [respects_var]
  by_cases hle : v.depth ≤ threshold + inner.length
  · rwa [Variable.raiseAbove_of_le hle]
  · rw [Variable.raiseAbove_of_lt (by omega)]
    intro _ hscope
    rw [List.append_nil] at hscope
    dsimp only at hscope
    omega

/-- An abstraction is left as it is, so what is asked of it has to be given, and occurrences are looked
at in one scope only. -/
theorem Respects.assignFree {d e : Discipline} {t : Term}
    (hvar : ∀ v, d.occurrence scope v → (Term.var v).assignFree.Respects e scope)
    (habs : ∀ binders body, (Term.abs binders body).Respects d scope →
      (Term.abs binders body).Respects e scope)
    (harguments : ∀ head n, d.arguments head n → e.arguments head n)
    (hdefinitions : ∀ n, d.definitions n → e.definitions n) (ht : t.Respects d scope) :
    t.assignFree.Respects e scope := by
  induction t using induction_on with
  | var v => exact hvar v ht
  | abs binders body _ => rw [Term.assignFree]; exact habs binders body ht
  | app l r ihl ihr =>
      obtain ⟨hl, hr⟩ := respects_app.mp ht
      rw [Term.assignFree]
      exact respects_app.mpr ⟨ihl hl, ihr hr⟩
  | const c => rw [Term.assignFree]; exact respects_const
  | list elems ih =>
      rw [Term.assignFree, assignFreeList_eq_map]
      simpa using fun t hmem => ih t hmem (respects_list.mp ht t hmem)
  | instr head args ih =>
      obtain ⟨hlength, hargs⟩ := respects_instr.mp ht
      rw [Term.assignFree, assignFreeList_eq_map, respects_instr, List.length_map]
      exact ⟨harguments _ _ hlength, by simpa using fun t hmem => ih t hmem (hargs t hmem)⟩
  | define form x a b iha ihb =>
      obtain ⟨ha, hb⟩ := respects_define.mp ht
      rw [Term.assignFree]
      exact respects_define.mpr ⟨iha ha, ihb hb⟩
  | recur defs b ihd ihb =>
      obtain ⟨hlength, hdefs, hb⟩ := respects_recur.mp ht
      rw [Term.assignFree, assignFreeDefs_eq_map, respects_recur, List.length_map]
      refine ⟨hdefinitions _ hlength, fun q hq => ?_, ihb hb⟩
      obtain ⟨p, hp, rfl⟩ := List.mem_map.mp hq
      exact ihd p hp (hdefs p hp)

/-- Where any occurrence may stand, a term may be prepared. -/
theorem Respects.assignFree_of_var {d : Discipline} {t : Term}
    (hvar : ∀ v, (Term.var v).Respects d scope) (ht : t.Respects d scope) :
    t.assignFree.Respects d scope :=
  Respects.assignFree (fun v _ => by rw [Term.assignFree]; exact hvar _) (fun _ _ h => h)
    (fun _ _ h => h) (fun _ h => h) ht

theorem WellFormed.assignFree {t : Term} (ht : t.WellFormed) : t.assignFree.WellFormed :=
  Respects.assignFree_of_var var_wellFormed ht

/-- A term without unassigned occurrences is ready to be an argument. -/
theorem Respects.assignFree_eq_self {t : Term} (ht : t.Respects .assigned scope) :
    t.assignFree = t := by
  induction t using induction_on with
  | var v =>
      have hv : v.isUnassigned = false := beq_eq_false_iff_ne.mpr (respects_var.mp ht)
      rw [Term.assignFree, hv]
      rfl
  | abs binders body _ => rw [Term.assignFree]
  | app l r ihl ihr =>
      obtain ⟨hl, hr⟩ := respects_app.mp ht
      rw [Term.assignFree, ihl hl, ihr hr]
  | const c => rw [Term.assignFree]
  | list elems ih =>
      have helems := respects_list.mp ht
      rw [Term.assignFree, assignFreeList_eq_map,
        List.map_congr_left fun t hmem => ih t hmem (helems t hmem), List.map_id']
  | instr head args ih =>
      have hargs := (respects_instr.mp ht).2
      rw [Term.assignFree, assignFreeList_eq_map,
        List.map_congr_left fun t hmem => ih t hmem (hargs t hmem), List.map_id']
  | define form x a b iha ihb =>
      obtain ⟨ha, hb⟩ := respects_define.mp ht
      rw [Term.assignFree, iha ha, ihb hb]
  | recur defs b ihd ihb =>
      obtain ⟨-, hdefs, hb⟩ := respects_recur.mp ht
      have hsame : ∀ p ∈ defs, (p.1, p.2.assignFree) = p := fun p hp => by rw [ihd p hp (hdefs p hp)]
      rw [Term.assignFree, assignFreeDefs_eq_map, List.map_congr_left hsame, List.map_id', ihb hb]

theorem WellFormed.replace {t u r : Term} {v : Variable} (ht : t.WellFormed) (hsize : t.Addressable)
    (hu : u.WellFormed) (h : t.replace v u = .ok r) : r.WellFormed := by
  obtain rfl := hsize.replace_atMost v u r h
  exact ht.replacing Discipline.wellFormed_portable v hu

/-! ## Constants into variables -/

theorem name_of_shift {v w : Variable} {s : Shift} (h : v.shift s = .ok w) : w.name = v.name := by
  obtain ⟨depth, -, h⟩ := bind_eq_ok.mp h
  cases h
  rfl

/-- Every element of a list of results is the result for an element of the list. -/
theorem abstractConstList_eq_ok {name : String} {v : Variable} {ts us : List Term}
    (h : abstractConstList name v ts = .ok us) :
    us.length = ts.length ∧ ∀ u ∈ us, ∃ t ∈ ts, t.abstractConst name v = .ok u := by
  induction ts generalizing us with
  | nil => cases h; exact ⟨rfl, fun _ hu => nomatch hu⟩
  | cons t ts ih =>
      rw [abstractConstList] at h
      obtain ⟨u, hu, h⟩ := bind_eq_ok.mp h
      obtain ⟨us', hus, h⟩ := bind_eq_ok.mp h
      cases h
      obtain ⟨hlength, hmem⟩ := ih hus
      refine ⟨by rw [List.length_cons, List.length_cons, hlength], fun w hw => ?_⟩
      rcases List.mem_cons.mp hw with rfl | hw
      · exact ⟨t, by simp, hu⟩
      · obtain ⟨t', ht', hw'⟩ := hmem w hw
        exact ⟨t', by simp [ht'], hw'⟩

theorem abstractConstDefs_eq_ok {name : String} {v : Variable} {defs results : List (String × Term)}
    (h : abstractConstDefs name v defs = .ok results) :
    results.length = defs.length ∧
      ∀ q ∈ results, ∃ p ∈ defs, p.2.abstractConst name v = .ok q.2 := by
  induction defs generalizing results with
  | nil => cases h; exact ⟨rfl, fun _ hq => nomatch hq⟩
  | cons p defs ih =>
      rw [abstractConstDefs] at h
      obtain ⟨u, hu, h⟩ := bind_eq_ok.mp h
      obtain ⟨results', hresults, h⟩ := bind_eq_ok.mp h
      cases h
      obtain ⟨hlength, hmem⟩ := ih hresults
      refine ⟨by rw [List.length_cons, List.length_cons, hlength], fun q hq => ?_⟩
      rcases List.mem_cons.mp hq with rfl | hq
      · exact ⟨p, by simp, hu⟩
      · obtain ⟨p', hp', hq'⟩ := hmem q hq
        exact ⟨p', by simp [hp'], hq'⟩

/-- The variable that is put in place of a constant is shifted on its way through the binders, and
`inserted` keeps track of it. -/
theorem Respects.abstractConst {d e : Discipline} (inserted : List String → Variable → Prop)
    (hweaken : ∀ scope, Carries (fun _ v => .var v) d e scope scope)
    (hplace : ∀ scope v, inserted scope v → e.occurrence scope v)
    (henter : ∀ scope binders v w, d.binders scope binders → inserted scope v →
      v.shift (.up binders.length) = .ok w → inserted (under binders scope) w)
    {t u : Term} {name : String} {v : Variable} (ht : t.Respects d scope) (hv : inserted scope v)
    (h : t.abstractConst name v = .ok u) : u.Respects e scope := by
  induction t using induction_on generalizing scope u v with
  | var w =>
      rw [Term.abstractConst] at h
      cases h
      exact ht.imp (hweaken scope)
  | const c =>
      rw [Term.abstractConst] at h
      cases h
      split
      · exact respects_var.mpr (hplace scope v hv)
      · exact respects_const
  | abs binders body ih =>
      obtain ⟨hbinders, hbody⟩ := respects_abs.mp ht
      rw [Term.abstractConst] at h
      obtain ⟨w, hw, h⟩ := bind_eq_ok.mp h
      obtain ⟨body', hbody', h⟩ := bind_eq_ok.mp h
      cases h
      have hw' := henter scope binders v w hbinders hv hw
      exact respects_abs.mpr ⟨(hweaken scope).binders [] binders hbinders, ih hbody hw' hbody'⟩
  | app l r ihl ihr =>
      obtain ⟨hl, hr⟩ := respects_app.mp ht
      rw [Term.abstractConst] at h
      obtain ⟨l', hl', h⟩ := bind_eq_ok.mp h
      obtain ⟨r', hr', h⟩ := bind_eq_ok.mp h
      cases h
      exact respects_app.mpr ⟨ihl hl hv hl', ihr hr hv hr'⟩
  | list elems ih =>
      rw [Term.abstractConst] at h
      obtain ⟨elems', helems, h⟩ := bind_eq_ok.mp h
      cases h
      refine respects_list.mpr fun u hu => ?_
      obtain ⟨t, hmem, hu⟩ := (abstractConstList_eq_ok helems).2 u hu
      exact ih t hmem (respects_list.mp ht t hmem) hv hu
  | instr head args ih =>
      obtain ⟨hlength, hargs⟩ := respects_instr.mp ht
      rw [Term.abstractConst] at h
      obtain ⟨args', hargs', h⟩ := bind_eq_ok.mp h
      cases h
      obtain ⟨hsame, hall⟩ := abstractConstList_eq_ok hargs'
      refine respects_instr.mpr ⟨hsame ▸ (hweaken scope).arguments _ _ hlength, fun u hu => ?_⟩
      obtain ⟨t, hmem, hu⟩ := hall u hu
      exact ih t hmem (hargs t hmem) hv hu
  | define form x a b iha ihb =>
      obtain ⟨ha, hb⟩ := respects_define.mp ht
      rw [Term.abstractConst] at h
      split at h
      · cases h
        exact ht.imp (hweaken scope)
      · obtain ⟨a', ha', h⟩ := bind_eq_ok.mp h
        obtain ⟨b', hb', h⟩ := bind_eq_ok.mp h
        cases h
        exact respects_define.mpr ⟨iha ha hv ha', ihb hb hv hb'⟩
  | recur defs b ihd ihb =>
      obtain ⟨hlength, hdefs, hb⟩ := respects_recur.mp ht
      rw [Term.abstractConst] at h
      split at h
      · cases h
        exact ht.imp (hweaken scope)
      · obtain ⟨defs', hdefs', h⟩ := bind_eq_ok.mp h
        obtain ⟨b', hb', h⟩ := bind_eq_ok.mp h
        cases h
        obtain ⟨hsame, hall⟩ := abstractConstDefs_eq_ok hdefs'
        refine respects_recur.mpr
          ⟨hsame ▸ (hweaken scope).definitions _ hlength, fun q hq => ?_, ihb hb hv hb'⟩
        obtain ⟨p, hp, hq⟩ := hall q hq
        exact ihd p hp (hdefs p hp) hv hq

/-- Under the binders of the scope the variable has moved past all of them, so it points to none. -/
theorem WellFormed.abstractConst {t u : Term} {name : String} {v : Variable} (ht : t.WellFormed)
    (hsize : t.Addressable) (h : t.abstractConst name v = .ok u) : u.WellFormed := by
  refine Respects.abstractConst (d := Discipline.wellFormed.and .addressable)
    (fun scope w => w = v.raiseAbove 0 scope.length) (fun scope => ?_) ?_ ?_
    (respects_and.mpr ⟨ht, hsize⟩) (Variable.raiseAbove_zero 0 v).symm h
  · exact ⟨fun _ _ h => respects_var.mpr h.1, fun _ _ h => h.1, fun _ _ h => h.1, fun _ h => h.1⟩
  · rintro scope w rfl hpos hle
    by_cases hv : v.depth ≤ 0
    · rw [Variable.raiseAbove_of_le hv] at hpos
      omega
    · rw [Variable.raiseAbove_of_lt (by omega)] at hle
      dsimp only at hle
      omega
  · rintro scope binders _ w hbinders rfl hw
    rw [Shift.up_eq hbinders.2] at hw
    obtain rfl := Variable.shift_raise_atMost _ _ _ w hw
    rw [Variable.raiseAbove_raiseAbove, ← length_under]

end Term

end IndexedLambda
