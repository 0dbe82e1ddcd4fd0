import IndexedLambda.Proofs.Sequencing
import IndexedLambda.Proofs.Types.AlphaEquivalence
import IndexedLambda.Types.Render
/-!
# When a type can be written

A type is written by the styles of the constants that are applied in it, and a constant that encloses
its parameters has its name cut in two. If the cut is no boundary of the name, nothing is written.
`Monotype.Legible` says that a type can be written. The lemmas for its constructors show what that takes:
every applied constant is well split, except in the kinds of an index, which are not written.

A type is well split if every constant that is applied in it is, in the kinds of an index too. So well
split types are legible, and their parts are well split again; and they stay well split when well split
types are put in for their variables. Without indices there is no difference to legible types.
-/

namespace IndexedLambda

/-- The fault of a name that cannot be cut. -/
def Fault.IsCut (f : Fault) : Prop := ∃ name position, f = .noBoundary name position

namespace TypeConstant

theorem isWellSplit_of_enclosing {name : String} {splitAt : Nat} {c : TypeConstant}
    (h : enclosing name splitAt = .ok c) : c.isWellSplit = true := by
  unfold enclosing at h
  simp only at h
  split at h
  case isTrue hsplit =>
    cases h
    exact hsplit
  case isFalse => cases h

/-- The signs of a well split constant are the two parts of its name. -/
theorem brackets_of_isWellSplit {c : TypeConstant} (hc : c.isWellSplit = true) :
    ∃ opening closing, c.brackets = .ok (opening, closing) ∧ ∀ splitAt, c.style = .enclosing splitAt →
      opening ++ closing = c.name ∧ Text.byteLength opening.toList = splitAt := by
  obtain ⟨name, style⟩ := c
  cases style with
  | plain => exact ⟨"(", ")", rfl, fun _ h => by cases h⟩
  | operator => exact ⟨"(", ")", rfl, fun _ h => by cases h⟩
  | enclosing splitAt =>
      obtain ⟨⟨before, after⟩, hcut⟩ := Option.isSome_iff_exists.mp hc
      refine ⟨.ofList before, .ofList after, by simp only [brackets, hcut], ?_⟩
      rintro _ ⟨⟩
      obtain ⟨happend, hbytes⟩ := Text.splitAtByte_eq_some hcut
      rw [← String.ofList_append, happend, String.toList_ofList]
      exact ⟨String.ofList_toList, hbytes⟩

/-- The name of any other constant cannot be cut. -/
theorem brackets_eq_error {c : TypeConstant} {f : Fault} (h : c.brackets = .error f) : f.IsCut := by
  unfold brackets at h
  split at h
  · split at h
    · cases h
    · cases h
      exact ⟨_, _, rfl⟩
  · cases h

theorem isWellSplit_of_brackets {c : TypeConstant} {signs : String × String}
    (h : c.brackets = .ok signs) : c.isWellSplit = true := by
  obtain ⟨name, style⟩ := c
  cases style with
  | plain => rfl
  | operator => rfl
  | enclosing splitAt =>
      rw [isWellSplit, Option.isSome_iff_ne_none]
      intro hcut
      simp only [brackets, hcut] at h
      cases h

end TypeConstant

namespace Monotype

/-! ## Legible types -/

/-- The type can be written. -/
def Legible (m : Monotype) : Prop := ∃ text, m.render = .ok text

theorem renderList_eq_mapM (ms : List Monotype) : renderList ms = ms.mapM render := by
  induction ms with
  | nil => rfl
  | cons m ms ih => rw [renderList, ih, List.mapM_cons]

theorem exists_renderList_eq_ok {ms : List Monotype} :
    (∃ texts, renderList ms = .ok texts) ↔ ∀ m ∈ ms, m.Legible := by
  rw [renderList_eq_mapM]
  exact exists_mapM_eq_ok

section Constructors

variable {v : TypeVariable} {c : TypeConstant} {params : List Monotype} {index : List (Term × Monotype)}

@[simp] theorem legible_var : (var v).Legible := ⟨_, rfl⟩

@[simp] theorem legible_const : (const c).Legible := ⟨_, rfl⟩

@[simp] theorem legible_app : (app c params).Legible ↔
    (params ≠ [] → c.isWellSplit = true) ∧ ∀ p ∈ params, p.Legible := by
  rw [Legible, render]
  cases params with
  | nil => simp
  | cons p ps =>
      rw [if_neg (by simp), ← exists_renderList_eq_ok]
      constructor
      · rintro ⟨text, h⟩
        obtain ⟨signs, hsigns, h⟩ := bind_eq_ok.mp h
        obtain ⟨texts, htexts, -⟩ := bind_eq_ok.mp h
        exact ⟨fun _ => TypeConstant.isWellSplit_of_brackets hsigns, texts, htexts⟩
      · rintro ⟨hc, texts, htexts⟩
        obtain ⟨opening, closing, hsigns, -⟩ :=
          TypeConstant.brackets_of_isWellSplit (hc (List.cons_ne_nil _ _))
        exact ⟨_, bind_eq_ok.mpr ⟨_, hsigns, bind_eq_ok.mpr ⟨texts, htexts, rfl⟩⟩⟩

@[simp] theorem legible_inst : (inst c params index).Legible ↔ ∀ p ∈ params, p.Legible := by
  rw [Legible, render, ← exists_renderList_eq_ok]
  constructor
  · rintro ⟨text, h⟩
    obtain ⟨texts, htexts, -⟩ := bind_eq_ok.mp h
    exact ⟨texts, htexts⟩
  · rintro ⟨texts, htexts⟩
    exact ⟨_, bind_eq_ok.mpr ⟨texts, htexts, rfl⟩⟩

end Constructors

theorem legible_arrow {a b : Monotype} : (arrow a b).Legible ↔ a.Legible ∧ b.Legible := by
  simp [arrow, TypeConstant.arrow, TypeConstant.operator, TypeConstant.isWellSplit]

/-- Putting types in for the variables takes nothing more than that these can be written. -/
theorem legible_subst {σ : TypeVariable → Monotype} {m : Monotype}
    (hσ : ∀ v ∈ m.occurrences, (σ v).Legible) : (m.subst σ).Legible ↔ m.Legible := by
  induction m using induction_on with
  | var v => simp [hσ v]
  | const c => simp
  | app c params ih =>
      rw [subst_app, legible_app, legible_app, List.forall_mem_map]
      exact and_congr (by simp) (forall₂_congr fun p hp =>
        ih p hp fun v hv => hσ v ((mem_occurrences_app _ _).mpr ⟨p, hp, hv⟩))
  | inst c params index ihp _ =>
      rw [subst_inst, legible_inst, legible_inst, List.forall_mem_map]
      exact forall₂_congr fun p hp =>
        ihp p hp fun v hv => hσ v ((mem_occurrences_inst _ _ _).mpr (.inl ⟨p, hp, hv⟩))

/-- Index terms can always be written. -/
theorem legible_mapIndex {f : Term → Term} {m : Monotype} : (m.mapIndex f).Legible ↔ m.Legible := by
  induction m using induction_on with
  | var v => rfl
  | const c => rfl
  | app c params ih =>
      rw [mapIndex_app, legible_app, legible_app, List.forall_mem_map]
      exact and_congr (by simp) (forall₂_congr ih)
  | inst c params index ihp _ =>
      rw [mapIndex_inst, legible_inst, legible_inst, List.forall_mem_map]
      exact forall₂_congr ihp

/-- What keeps a type from being written is a name that cannot be cut. -/
theorem render_eq_error {m : Monotype} {f : Fault} (h : m.render = .error f) : f.IsCut := by
  -- parameters are written from the left, and the first that cannot be gives the fault
  have hlist {ms : List Monotype} (ih : ∀ m ∈ ms, m.render = .error f → f.IsCut)
      (h : renderList ms = .error f) : f.IsCut := by
    induction ms with
    | nil => cases h
    | cons m ms ihs =>
        rcases bind_eq_error.mp h with hm | ⟨text, -, h⟩
        · exact ih m List.mem_cons_self hm
        · rcases bind_eq_error.mp h with hms | ⟨texts, -, h⟩
          · exact ihs (fun m hm => ih m (List.mem_cons_of_mem _ hm)) hms
          · cases h
  induction m using induction_on with
  | var v => cases h
  | const c => cases h
  | app c params ih =>
      rw [render] at h
      split at h
      case isTrue => cases h
      case isFalse =>
        rcases bind_eq_error.mp h with hsigns | ⟨signs, -, h⟩
        · exact TypeConstant.brackets_eq_error hsigns
        · rcases bind_eq_error.mp h with hparams | ⟨texts, -, h⟩
          · exact hlist ih hparams
          · cases h
  | inst c params index ihp _ =>
      rcases bind_eq_error.mp h with hparams | ⟨texts, -, h⟩
      · exact hlist ihp hparams
      · cases h

theorem not_legible_of_error {m : Monotype} {f : Fault} (h : m.render = .error f) : ¬m.Legible := by
  rintro ⟨text, htext⟩
  cases h.symm.trans htext

/-- A type is written, or a name that cannot be cut prevents it. -/
theorem render_cases (m : Monotype) : m.Legible ∨ ∃ f, m.render = .error f ∧ f.IsCut := by
  cases h : m.render with
  | ok text => exact .inl ⟨text, h⟩
  | error f => exact .inr ⟨f, rfl, render_eq_error h⟩

/-! ## Well split types -/

mutual
/-- Whether every constant that is applied in the type is well split, in the kinds of an index too. -/
def isWellSplit : Monotype → Bool
  | .var _ => true
  | .const _ => true
  | .app c params => (params.isEmpty || c.isWellSplit) && isWellSplitList params
  | .inst _ params index => isWellSplitList params && isWellSplitKinds index
/-- `isWellSplit` of all elements. -/
def isWellSplitList : List Monotype → Bool
  | [] => true
  | m :: ms => m.isWellSplit && isWellSplitList ms
/-- `isWellSplit` of all kinds. -/
def isWellSplitKinds : List (Term × Monotype) → Bool
  | [] => true
  | (_, k) :: js => k.isWellSplit && isWellSplitKinds js
end

theorem isWellSplitList_iff {ms : List Monotype} :
    isWellSplitList ms = true ↔ ∀ m ∈ ms, m.isWellSplit = true := by
  induction ms with
  | nil => simp [isWellSplitList]
  | cons m ms ih => rw [isWellSplitList, Bool.and_eq_true, ih, List.forall_mem_cons]

theorem isWellSplitKinds_iff {js : List (Term × Monotype)} :
    isWellSplitKinds js = true ↔ ∀ j ∈ js, j.2.isWellSplit = true := by
  induction js with
  | nil => simp [isWellSplitKinds]
  | cons j js ih => rw [isWellSplitKinds, Bool.and_eq_true, ih, List.forall_mem_cons]

section Constructors

variable {c : TypeConstant} {params : List Monotype} {index : List (Term × Monotype)}

@[simp] theorem isWellSplit_app : (app c params).isWellSplit = true ↔
    (params ≠ [] → c.isWellSplit = true) ∧ ∀ p ∈ params, p.isWellSplit = true := by
  rw [isWellSplit, Bool.and_eq_true, isWellSplitList_iff, Bool.or_eq_true, List.isEmpty_iff,
    or_iff_not_imp_left]

@[simp] theorem isWellSplit_inst : (inst c params index).isWellSplit = true ↔
    (∀ p ∈ params, p.isWellSplit = true) ∧ ∀ j ∈ index, j.2.isWellSplit = true := by
  rw [isWellSplit, Bool.and_eq_true, isWellSplitList_iff, isWellSplitKinds_iff]

end Constructors

theorem isWellSplit_arrow {a b : Monotype} :
    (arrow a b).isWellSplit = true ↔ a.isWellSplit = true ∧ b.isWellSplit = true := by
  simp [arrow, TypeConstant.arrow, TypeConstant.operator, TypeConstant.isWellSplit]

/-- A well split type can be written. -/
theorem legible_of_isWellSplit {m : Monotype} (h : m.isWellSplit = true) : m.Legible := by
  induction m using induction_on with
  | var v => exact legible_var
  | const c => exact legible_const
  | app c params ih =>
      obtain ⟨hc, hparams⟩ := isWellSplit_app.mp h
      exact legible_app.mpr ⟨hc, fun p hp => ih p hp (hparams p hp)⟩
  | inst c params index ihp _ =>
      exact legible_inst.mpr fun p hp => ihp p hp ((isWellSplit_inst.mp h).1 p hp)

/-- A type that is well split under a condition cannot be written only where the condition fails. -/
theorem cut_of_error {condition : Prop} {m : Monotype} {f : Fault}
    (hm : condition → m.isWellSplit = true) (hf : m.render = .error f) : f.IsCut ∧ ¬condition :=
  ⟨render_eq_error hf, fun h => not_legible_of_error hf (legible_of_isWellSplit (hm h))⟩

/-- Without indices, all of a type is written. -/
theorem Legible.isWellSplit {m : Monotype} (h : m.Legible) (hm : m.isIndexFree = true) :
    m.isWellSplit = true := by
  induction m using induction_on with
  | var v => rfl
  | const c => rfl
  | app c params ih =>
      obtain ⟨hc, hparams⟩ := legible_app.mp h
      exact isWellSplit_app.mpr ⟨hc, fun p hp => ih p hp (hparams p hp) (isIndexFree_app.mp hm p hp)⟩
  | inst c params index => exact absurd hm (by simp)

theorem isWellSplit_subst {σ : TypeVariable → Monotype} {m : Monotype} (hm : m.isWellSplit = true)
    (hσ : ∀ v ∈ m.occurrences, (σ v).isWellSplit = true) : (m.subst σ).isWellSplit = true := by
  induction m using induction_on with
  | var v => exact hσ v (by simp)
  | const c => exact hm
  | app c params ih =>
      obtain ⟨hc, hparams⟩ := isWellSplit_app.mp hm
      rw [subst_app, isWellSplit_app, List.forall_mem_map]
      exact ⟨fun hne => hc (by simpa using hne), fun p hp => ih p hp (hparams p hp) fun v hv =>
        hσ v ((mem_occurrences_app _ _).mpr ⟨p, hp, hv⟩)⟩
  | inst c params index ihp ihj =>
      obtain ⟨hparams, hkinds⟩ := isWellSplit_inst.mp hm
      rw [subst_inst, isWellSplit_inst, List.forall_mem_map, List.forall_mem_map]
      exact ⟨fun p hp => ihp p hp (hparams p hp) fun v hv =>
          hσ v ((mem_occurrences_inst _ _ _).mpr (.inl ⟨p, hp, hv⟩)),
        fun j hj => ihj j hj (hkinds j hj) fun v hv =>
          hσ v ((mem_occurrences_inst _ _ _).mpr (.inr ⟨j, hj, hv⟩))⟩

theorem isWellSplit_mapIndex {f : Term → Term} {m : Monotype} :
    (m.mapIndex f).isWellSplit = true ↔ m.isWellSplit = true := by
  induction m using induction_on with
  | var v => rfl
  | const c => rfl
  | app c params ih =>
      rw [mapIndex_app, isWellSplit_app, isWellSplit_app, List.forall_mem_map]
      exact and_congr (by simp) (forall₂_congr ih)
  | inst c params index ihp ihj =>
      rw [mapIndex_inst, isWellSplit_inst, isWellSplit_inst, List.forall_mem_map, List.forall_mem_map]
      exact and_congr (forall₂_congr ihp) (forall₂_congr ihj)

end Monotype

/-! ## Types with binders -/

/-- The type can be written. -/
def Ty.Legible (y : Ty) : Prop := ∃ text, y.render = .ok text

/-- Binders of type variables can always be written. -/
theorem Ty.legible_iff {y : Ty} : y.Legible ↔ ∃ text, y.toPolytype.body.render = .ok text := by
  cases y with
  | bare b => exact Iff.rfl
  | poly p =>
      rw [Legible, render, Polytype.render]
      split
      · exact Iff.rfl
      · constructor
        · rintro ⟨text, h⟩
          obtain ⟨written, hwritten, -⟩ := bind_eq_ok.mp h
          exact ⟨written, hwritten⟩
        · rintro ⟨written, hwritten⟩
          exact ⟨_, bind_eq_ok.mpr ⟨written, hwritten, rfl⟩⟩

theorem Ty.legible_iff_of_mono {y : Ty} {m : Monotype} (h : y.toPolytype.body = .mono m) :
    y.Legible ↔ m.Legible := by
  rw [legible_iff, h]
  rfl

/-- The parameters of a dependent type are written with it. -/
theorem DependentType.legible_of_params {d : DependentType} {text : String} (h : d.render = .ok text) :
    ∀ p ∈ d.params, p.Legible := by
  obtain ⟨_, -, h⟩ := bind_eq_ok.mp h
  obtain ⟨instanced, hinstanced, -⟩ := bind_eq_ok.mp h
  split at hinstanced
  · exact (Monotype.legible_app.mp ⟨instanced, hinstanced⟩).2
  · exact Monotype.legible_inst.mp ⟨instanced, hinstanced⟩

end IndexedLambda
