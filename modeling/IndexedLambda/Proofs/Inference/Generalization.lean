import IndexedLambda.Proofs.Inference.Explanation
import IndexedLambda.Proofs.Inference.Freshness
import IndexedLambda.Proofs.Inference.Instantiation
/-!
# Instantiation after generalisation

Generalisation binds what a resolved type mentions and Γ does not, and instantiation gives the bound
variables fresh names. One after the other they rename exactly these variables. Γ counts as the
classes have it: a binder of an entry is no variable of Γ, a shadowed entry counts as much as a
visible one, and a variable of the type can be linked to an entry through the classes alone.
`Inference.FreeInSymbols` says this by resolving each entry as a whole, with constants for its
binders, and `Inference.mem_environment_iff` compares it with the list that generalisation consults.

That the renaming is one-to-one rests on the freshness invariant. What generalisation leaves free is
mentioned by Γ, and Γ mentions no variable that is still to come (`Clean.old_of_freeInSymbols`).
-/

namespace IndexedLambda

/-! ## The order of first occurrence -/

section FirstOccurrence

variable {α : Type} [DecidableEq α] {p : α → Bool} {a b : α}

/-- Leaving elements out does not change which of two others comes first. -/
theorem idxOf_lt_of_idxOf_filter_lt (ha : p a = true) (hb : p b = true) {l : List α}
    (h : (l.filter p).idxOf a < (l.filter p).idxOf b) : l.idxOf a < l.idxOf b := by
  induction l with
  | nil => exact absurd h (Nat.lt_irrefl _)
  | cons x l ih =>
      by_cases hxa : x = a
      · subst hxa
        have hne : x ≠ b := by
          rintro rfl
          exact absurd h (Nat.lt_irrefl _)
        rw [List.idxOf_cons_self, List.idxOf_cons_ne l hne]
        exact Nat.succ_pos _
      · by_cases hxb : x = b
        · subst hxb
          rw [List.filter_cons_of_pos hb, List.idxOf_cons_self] at h
          exact absurd h (Nat.not_lt_zero _)
        · rw [List.idxOf_cons_ne l hxa, List.idxOf_cons_ne l hxb]
          refine Nat.succ_lt_succ (ih ?_)
          by_cases hx : p x = true
          · rw [List.filter_cons_of_pos hx, List.idxOf_cons_ne _ hxa, List.idxOf_cons_ne _ hxb] at h
            exact Nat.lt_of_succ_lt_succ h
          · rwa [List.filter_cons_of_neg hx] at h

/-- Without its repetitions a list keeps the order of first occurrence. -/
theorem pairwise_idxOf_eraseDups :
    ∀ l : List α, l.eraseDups.Pairwise fun a b => l.idxOf a < l.idxOf b
  | [] => List.Pairwise.nil
  | a :: l => by
      have hmem : ∀ b ∈ (l.filter fun b => !b == a).eraseDups, (!b == a) = true := fun b hb =>
        (List.mem_filter.mp (List.mem_eraseDups.mp hb)).2
      have hne : ∀ b, (!b == a) = true → a ≠ b := by
        rintro b hb rfl
        simp at hb
      rw [List.eraseDups_cons, List.pairwise_cons]
      constructor
      · intro b hb
        rw [List.idxOf_cons_self, List.idxOf_cons_ne l (hne b (hmem b hb))]
        exact Nat.succ_pos _
      · refine (pairwise_idxOf_eraseDups (l.filter fun b => !b == a)).imp_of_mem ?_
        intro b c hb hc h
        rw [List.idxOf_cons_ne l (hne b (hmem b hb)), List.idxOf_cons_ne l (hne c (hmem c hc))]
        exact Nat.succ_lt_succ (idxOf_lt_of_idxOf_filter_lt (p := fun b => !b == a) (hmem b hb)
          (hmem c hc) h)
termination_by l => l.length
decreasing_by exact Nat.lt_succ_of_le (List.length_filter_le _ _)

end FirstOccurrence

/-- The variables of a type that have a property, each once and in the order in which they first
occur. -/
structure Monotype.ListsOnce (m : Monotype) (P : TypeVariable → Prop) (vars : List TypeVariable) :
    Prop where
  mem : ∀ v, v ∈ vars ↔ v ∈ m.occurrences ∧ P v
  nodup : vars.Nodup
  inOrder : vars.Pairwise fun v w => m.occurrences.idxOf v < m.occurrences.idxOf w

theorem Monotype.listsOnce_filter (m : Monotype) {P : TypeVariable → Prop} {p : TypeVariable → Bool}
    (hp : ∀ v, p v = true ↔ P v) : m.ListsOnce P (m.freeVariables.filter p) := by
  have hinOrder := (pairwise_idxOf_eraseDups m.occurrences).filter p
  refine ⟨fun v => ?_, ?_, hinOrder⟩
  · rw [List.mem_filter, mem_freeVariables, hp]
  · refine hinOrder.imp ?_
    rintro v w h rfl
    exact absurd h (Nat.lt_irrefl _)

/-! ## The free variables of Γ -/

theorem Body.mem_freeVariables {b : Body} {v : TypeVariable} :
    v ∈ b.freeVariables ↔ v ∈ b.indexedBySelf.occurrences := by
  cases b with
  | mono m => exact Monotype.mem_freeVariables
  | dependent d =>
      show v ∈ d.occurrences.eraseDups ↔ v ∈ d.indexedBySelf.occurrences
      rw [List.mem_eraseDups, DependentType.mem_occurrences, DependentType.indexedBySelf_eq,
        Monotype.mem_occurrences_inst]
      constructor
      · rintro (⟨b, hb, hv⟩ | hparams | ⟨j, hj, hv⟩)
        · exact .inr ⟨(.var b.1, b.2), List.mem_append_right _ (List.mem_map_of_mem hb), hv⟩
        · exact .inl hparams
        · exact .inr ⟨j, List.mem_append_left _ hj, hv⟩
      · rintro (hparams | ⟨j, hj, hv⟩)
        · exact .inr (.inl hparams)
        · rcases List.mem_append.mp hj with hj | hj
          · exact .inr (.inr ⟨j, hj, hv⟩)
          · obtain ⟨b, hb, rfl⟩ := List.mem_map.mp hj
            exact .inl ⟨b, hb, hv⟩

theorem Ty.mem_freeVariables_iff {y : Ty} {v : TypeVariable} : v ∈ y.freeVariables ↔
    v ∈ y.toPolytype.body.indexedBySelf.occurrences ∧ v ∉ y.toPolytype.binders := by
  cases y with
  | bare b =>
      show v ∈ b.freeVariables ↔ v ∈ b.indexedBySelf.occurrences ∧ v ∉ []
      simp [Body.mem_freeVariables]
  | poly p =>
      show v ∈ p.body.freeVariables.filter _ ↔ v ∈ p.body.indexedBySelf.occurrences ∧ v ∉ p.binders
      rw [List.mem_filter, Body.mem_freeVariables]
      simp

/-- The type as a monotype, with constants for its binders. -/
def Ty.closed (y : Ty) : Monotype := y.toPolytype.body.indexedBySelf.close y.toPolytype.binders

theorem Ty.mem_occurrences_closed {y : Ty} {v : TypeVariable} :
    v ∈ y.closed.occurrences ↔ v ∈ y.freeVariables := by
  rw [closed, Monotype.mem_occurrences_close, mem_freeVariables_iff]

theorem TypeContext.mem_occurrences_resolve {c : TypeContext} {m : Monotype} {w : TypeVariable} :
    w ∈ (c.resolve m).occurrences ↔
      ∃ v ∈ m.occurrences, w ∈ (c.resolve (.var v)).occurrences := by
  have h := Classes.resolve_eq_subst (c := c.known) m
  rw [show c.resolve m = _ from h, Monotype.mem_occurrences_subst]
  simp only [Monotype.mem_occurrences_mapIndex]
  rfl

namespace Inference

variable {s s' : Inference}

/-- Some entry of the symbol table, visible or shadowed, has the variable free once it is
resolved. -/
def FreeInSymbols (s : Inference) (w : TypeVariable) : Prop :=
  ∃ x, ∃ j ∈ s.symbols.bindings x, w ∈ (s.types.resolve j.type.closed).occurrences

theorem mem_environment_iff {w : TypeVariable} : w ∈ s.environment ↔ s.FreeInSymbols w := by
  have hentry : ∀ j : Judgment, (w ∈ j.type.freeVariables.flatMap fun v =>
      (s.types.resolve (.var v)).freeVariables) ↔
        w ∈ (s.types.resolve j.type.closed).occurrences := by
    intro j
    simp only [List.mem_flatMap, Monotype.mem_freeVariables, TypeContext.mem_occurrences_resolve
      (m := j.type.closed), Ty.mem_occurrences_closed]
  constructor
  · intro hw
    obtain ⟨j, hj, hw⟩ := List.mem_flatMap.mp hw
    obtain ⟨x, hx⟩ := SymbolTable.exists_of_mem_judgments hj
    exact ⟨x, j, hx, (hentry j).mp hw⟩
  · rintro ⟨x, j, hj, hw⟩
    exact List.mem_flatMap.mpr ⟨j, SymbolTable.mem_judgments hj, (hentry j).mpr hw⟩

theorem Clean.old_of_freeInSymbols (hs : s.Clean) {w : TypeVariable} (hw : s.FreeInSymbols w) :
    s.types.Old w := by
  obtain ⟨x, j, hj, hw⟩ := hw
  obtain ⟨v, hv, hw⟩ := TypeContext.mem_occurrences_resolve.mp hw
  obtain ⟨-, htype⟩ := Region.holdsData_judgment.mp (hs.symbols x j hj)
  have hvold : s.types.Old v :=
    htype.body.types v (Ty.mem_freeVariables_iff.mp (Ty.mem_occurrences_closed.mp hv)).1
  exact (hs.types.classes.resolve hs.types.acyclic (Region.holds_var.mpr hvold)).types w hw

theorem not_created_of_old {v : TypeVariable} (hv : s.types.Old v) : ¬s.Created s' v := by
  rintro ⟨k, hk, -, rfl⟩
  exact hv k hk rfl

/-! ## Generalise, then instantiate -/

/-- The variables to be bound, or `_` if there are none. -/
def bindersOver (vars : List TypeVariable) : List TypeVariable :=
  if vars = [] then [.wildcard] else vars

/-- The renaming gives the listed variables of a type names of their own, taken between the two
contexts, and leaves all others alone. -/
structure RenamesFresh (s s' : Inference) (m : Monotype) (vars : List TypeVariable)
    (ρ : TypeVariable → TypeVariable) : Prop where
  fresh : ∀ v ∈ vars, s.Created s' (ρ v)
  kept : ∀ v, v ∉ vars → ρ v = v
  injective : ∀ v ∈ m.occurrences, ∀ w ∈ m.occurrences, ρ v = ρ w → v = w
  unused : ∀ v ∈ vars, ¬s.FreeInSymbols (ρ v)
  apart : (∀ v ∈ m.occurrences, s.types.Old v) → ∀ v ∈ vars, ρ v ∉ m.occurrences

theorem generalize_eq {t : Monotype} (hindex : (s.types.resolve t).isIndexFree = true) :
    ∃ vars, (s.types.resolve t).ListsOnce (fun v => ¬s.FreeInSymbols v) vars ∧
      s.generalize t = ⟨bindersOver vars, .mono (s.types.resolve t)⟩ := by
  refine ⟨_, Monotype.listsOnce_filter _ (p := fun v => !s.environment.contains v) fun v => ?_, ?_⟩
  · rw [← mem_environment_iff]
    simp
  · rw [generalize_of_isIndexFree hindex]
    generalize (s.types.resolve t).freeVariables.filter _ = vars
    cases vars with
    | nil => rfl
    | cons v vars => rfl

theorem named_bindersOver {vars : List TypeVariable} (hvars : ∀ v ∈ vars, v.isWildcard = false)
    (b : Body) : Polytype.named ⟨bindersOver vars, b⟩ = vars := by
  unfold Polytype.named bindersOver
  by_cases hnil : vars = []
  · rw [if_pos hnil, hnil]
    rfl
  · rw [if_neg hnil]
    exact List.filter_eq_self.mpr fun v hv => by rw [hvars v hv]; rfl

/-- Opening a type over the variables that Γ does not mention renames these. -/
theorem Clean.renamesFresh_opening (hs : s.Clean) {p : Polytype} {m : Monotype}
    (hlists : m.ListsOnce (fun v => ¬s.FreeInSymbols v) p.named) (hbody : p.body = .mono m)
    (hs' : s'.types.nextVar = s.types.nextVar + p.named.length) :
    s.RenamesFresh s' m p.named (s.opening p) := by
  have hmem : ∀ v, v ∈ p.body.freeVariables ↔ v ∈ m.occurrences := by
    intro v
    rw [hbody]
    exact Monotype.mem_freeVariables
  -- what is left free is mentioned by Γ, and so is no variable that is drawn
  have hfree : ∀ v, s.Created s' v → v ∉ p.freeVariables := by
    intro v hcreated hv
    obtain ⟨hv, hbinders⟩ := List.mem_filter.mp hv
    have huse : s.FreeInSymbols v := by
      by_contra hnot
      have hnamed := (hlists.mem v).mpr ⟨(hmem v).mp hv, hnot⟩
      simp [(Polytype.mem_named.mp hnamed).1] at hbinders
    exact not_created_of_old (hs.old_of_freeInSymbols huse) hcreated
  refine ⟨fun v hv => created_opening hs' hv, fun v hv => opening_of_not_named hv, ?_, ?_, ?_⟩
  · intro v hv w hw hsame
    exact opening_inj hs' hfree ((hmem v).mpr hv) ((hmem w).mpr hw) hsame
  · intro v hv huse
    exact not_created_of_old (hs.old_of_freeInSymbols huse) (created_opening hs' hv)
  · intro hold v hv hoccurs
    exact not_created_of_old (hold _ hoccurs) (created_opening hs' hv)

/-- **Instantiation undoes generalisation, up to fresh names.** In a context with the freshness
invariant, a type without dependent instances and without `_` is generalised over the variables that
no entry of Γ has free, each once and in the order of first occurrence, or over `_` if there are
none. Opened again, it is the resolved type with these variables renamed one-to-one to fresh ones,
unless the counter has no room for them. -/
theorem generalize_instantiate_renames (hs : s.Clean) {t : Monotype}
    (hindex : (s.types.resolve t).isIndexFree = true)
    (hnamed : ∀ v ∈ (s.types.resolve t).occurrences, v.isWildcard = false) :
    ∃ vars, (s.types.resolve t).ListsOnce (fun v => ¬s.FreeInSymbols v) vars ∧
      s.generalize t = ⟨bindersOver vars, .mono (s.types.resolve t)⟩ ∧
      ((∃ ρ s', instantiate (.poly (s.generalize t)) s =
          .ok ((s.types.resolve t).subst fun v => .var (ρ v)) s' ∧
          s.RenamesFresh s' (s.types.resolve t) vars ρ) ∨
        ∃ s', instantiate (.poly (s.generalize t)) s = .error .overflow s' ∧
          counterRange ≤ s.types.nextVar + vars.length) := by
  obtain ⟨vars, hlists, hgeneral⟩ := generalize_eq hindex
  refine ⟨vars, hlists, hgeneral, ?_⟩
  rw [hgeneral]
  generalize hp : (⟨bindersOver vars, .mono (s.types.resolve t)⟩ : Polytype) = p
  obtain rfl : p.named = vars := by
    rw [← hp]
    exact named_bindersOver (fun v hv => hnamed v ((hlists.mem v).mp hv).1) _
  have hbody : p.body = .mono (s.types.resolve t) := by rw [← hp]
  rcases instantiate_mono_cases (y := .poly p) hbody s with hrun | hfull
  · exact .inl ⟨s.opening p, _, hrun, hs.renamesFresh_opening hlists hbody rfl⟩
  · exact .inr hfull

/-- Γ has `x : ∀a. a → v`, shadowed by `x : Nat`. The classes make a list of `w` of `v`, and one
variable of `u` and `y`. So `w & (u → y)` is generalised over `y` alone. -/
theorem generalize_instantiate_renames_of_shadowed :
    let a : TypeVariable := ⟨"a", 0⟩
    let u : Monotype := .named "u"
    let v : Monotype := .named "v"
    let w : Monotype := .named "w"
    let y : Monotype := .named "y"
    let bind : Call := .add "x" (.poly ⟨[a], .mono (.arrow (.var a) v)⟩)
    let shadow : Call := .add "x" (.mono (.plain "Nat"))
    let join : Call :=
      .onTypes (.unify ⟨fun _ _ => .fail none, 5⟩ (.pair v u) (.pair (.list w) y))
    let s := join.run (shadow.run (bind.run (.startingAt 0 0)))
    let t : Monotype := .pair w (.arrow u y)
    let r : Monotype := .pair w (.arrow y y)
    let m : Monotype := .pair w (.arrow (.named "$0") (.named "$0"))
    s.Clean ∧ s.types.resolve t = r ∧ ∃ vars, r.ListsOnce (fun v => ¬s.FreeInSymbols v) vars ∧
      s.generalize t = ⟨bindersOver vars, .mono r⟩ ∧
      ∃ ρ s', instantiate (.poly (s.generalize t)) s = .ok m s' ∧
        m = r.subst (fun v => .var (ρ v)) ∧ s.RenamesFresh s' r vars ρ := by
  intro a u v w y bind shadow join s t r m
  have hroom : 0 < counterRange := by decide
  have hvar : ∀ (c : Inference) (name : String), name.toList.head? ≠ some '$' →
      c.old.Holds (.named name) := fun c name hname =>
    Region.holds_var.mpr (TypeContext.old_of_unmarked hname)
  have hbind : (bind.run (.startingAt 0 0)).Clean := by
    refine (Call.run_leads (Dialogue.clean_start hroom hroom).state bind trivial ?_).1.1
    refine Region.holdsData_type.mpr ⟨List.forall_mem_singleton.mpr ?_, ?_⟩
    · exact TypeContext.old_of_unmarked (by decide)
    · exact TypeContext.holds_two (hvar _ "a" (by decide)) (hvar _ "v" (by decide))
  have hshadow : (shadow.run (bind.run (.startingAt 0 0))).Clean := by
    refine (Call.run_leads hbind shadow trivial (Region.holdsData_mono.mpr ?_)).1.1
    exact ⟨by simp [Monotype.plain], by simp [Monotype.plain]⟩
  have hs : s.Clean := by
    refine (Call.run_leads hshadow join trivial ?_).1.1
    refine List.forall_mem_append.mpr ⟨Region.holdsData_mono.mpr ?_, Region.holdsData_mono.mpr ?_⟩
    · exact TypeContext.holds_two (hvar _ "v" (by decide)) (hvar _ "u" (by decide))
    · refine TypeContext.holds_two (Region.holds_app.mpr ?_) (hvar _ "y" (by decide))
      exact List.forall_mem_singleton.mpr (hvar _ "w" (by decide))
  have hr : s.types.resolve t = r := by decide +kernel
  have hgeneralized := generalize_instantiate_renames hs (t := t) (by rw [hr]; rfl)
    (by rw [hr]; decide +kernel)
  obtain ⟨s₁, hrun⟩ : ∃ s₁, instantiate (.poly (s.generalize t)) s = .ok m s₁ :=
    ⟨_, eq_ok_of_run' (by decide +kernel)⟩
  rw [hr] at hgeneralized
  obtain ⟨vars, hlists, hpoly, ⟨ρ, s', hrun', hρ⟩ | ⟨s', hrun', -⟩⟩ := hgeneralized
  · obtain ⟨hm, rfl⟩ := EStateM.Result.ok.inj (hrun.symm.trans hrun')
    exact ⟨hs, hr, vars, hlists, hpoly, ρ, s₁, hrun, hm, hρ⟩
  · cases hrun.symm.trans hrun'

end Inference

end IndexedLambda
