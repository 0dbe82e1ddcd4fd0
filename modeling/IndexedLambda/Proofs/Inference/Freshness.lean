import IndexedLambda.Proofs.Inference.Elaboration
import IndexedLambda.Proofs.Inference.FreshTypes
/-!
# Fresh variables are fresh

A dialogue is a sequence of requests to an inference context, together with everything the context
has handed out in its answers. A request brings types and terms with it. These are either some that
were handed out before, or they mention no variable that the counters are still to give out. Nothing
else is asked of the client.

Then nothing in the context and nothing that was ever handed out mentions a variable that is still
to come (`Dialogue.fresh_variables`). A variable that is drawn is therefore used nowhere yet, and
two uses of a name have no fresh variable in common. Both counters stay within their range, and at
the end of the range no variable is given out any more.
-/

namespace IndexedLambda

open Relation

/-! ## Names of terms -/

namespace NameTable

variable {names names' : NameTable}

/-- The name is none of those that are still to come. -/
def Old (names : NameTable) (x : String) : Prop := ∀ k, names.nextVar ≤ k → x ≠ (numbered k).name

theorem Old.later {x : String} (h : names.Old x) (hle : names.nextVar ≤ names'.nextVar) :
    names'.Old x := fun k hk => h k (Nat.le_trans hle hk)

theorem old_numbered {k : Nat} (hk : k < names.nextVar) : names.Old (numbered k).name := by
  intro i hi heq
  have hki : k = i := append_repr_inj heq
  omega

/-- A later table has given out more names and is still within its range. -/
def evolution : Evolution NameTable where
  later names names' := names.nextVar ≤ names'.nextVar ∧ names'.nextVar < counterRange
  self h := ⟨Nat.le_refl _, h.2⟩
  trans h h' := ⟨Nat.le_trans h.1 h'.1, h'.2⟩

theorem freshVar_leads (h : names.nextVar < counterRange) :
    Leads evolution (fun names' v => names'.Old v.name) freshVar names := by
  have hrun := names.freshVar_eq
  by_cases hroom : names.nextVar + 1 < counterRange
  · rw [if_pos hroom] at hrun
    exact .of_ok hrun ⟨Nat.le_succ _, hroom⟩ (old_numbered (Nat.lt_succ_self _))
  · rw [if_neg hroom] at hrun
    exact .of_error hrun ⟨Nat.le_refl _, h⟩

end NameTable

/-! ## The ends of the counters -/

theorem TypeContext.freshVar_below {c : TypeContext} (h : c.nextVar < 4294967295) :
    ∃ v d, freshVar c = .ok v d ∧ d.nextVar = c.nextVar + 1 := by
  have hroom : c.nextVar + 1 < counterRange := Nat.succ_lt_succ h
  rw [freshVar_eq, if_pos hroom]
  exact ⟨_, _, rfl, rfl⟩

theorem TypeContext.freshVar_at_end {c : TypeContext} (h : c.nextVar = 4294967295) :
    freshVar c = .error .overflow c := by
  have hfull : ¬c.nextVar + 1 < counterRange := by rw [h]; decide
  rw [freshVar_eq, if_neg hfull]

theorem NameTable.freshVar_below {names : NameTable} (h : names.nextVar < 4294967295) :
    ∃ v names', freshVar names = .ok v names' ∧ names'.nextVar = names.nextVar + 1 := by
  have hroom : names.nextVar + 1 < counterRange := Nat.succ_lt_succ h
  rw [freshVar_eq, if_pos hroom]
  exact ⟨_, _, rfl, rfl⟩

theorem NameTable.freshVar_at_end {names : NameTable} (h : names.nextVar = 4294967295) :
    freshVar names = .error .overflow names := by
  have hfull : ¬names.nextVar + 1 < counterRange := by rw [h]; decide
  rw [freshVar_eq, if_neg hfull]

/-! ## Opening with fresh names -/

/-- Fresh variables are marked as such by their names. -/
theorem TypeContext.old_of_unmarked {c : TypeContext} {v : TypeVariable}
    (h : v.name.toList.head? ≠ some '$') : c.Old v := by
  rintro k - rfl
  refine h ?_
  show ("$" ++ k.repr).toList.head? = some '$'
  rw [String.toList_append]
  rfl

theorem Body.indexedByFresh_leads {names : NameTable} (h : names.nextVar < counterRange)
    (b : Body) : Leads NameTable.evolution (fun names' m => ∃ terms : List Term,
      (∀ t ∈ terms, t.NamedBy names'.Old) ∧ m = b.openedBy terms) b.indexedByFresh names := by
  have hstart : NameTable.evolution.later names names := ⟨Nat.le_refl _, h⟩
  cases b with
  | mono m => exact .pure hstart ⟨[], by simp, rfl⟩
  | dependent d =>
      refine .bind (.mapM (G := fun names' t => t.NamedBy names'.Old) (fun hle ht => ?_) hstart
        (fun _ names' hle => ?_) d.binders) fun terms names' hle hterms => ?_
      · exact ht.imp fun x hx => hx.later hle.1
      · exact .bind (NameTable.freshVar_leads hle.2) fun v names'' hle' hv =>
          .pure (NameTable.evolution.self hle') (Term.namedBy_var.mpr hv)
      · exact .pure (NameTable.evolution.self hle) ⟨terms, hterms, rfl⟩

/-! ## Clean inference contexts -/

theorem TypeContext.Clean.mono {N M : String → Prop} {c : TypeContext} (h : c.Clean N)
    (hNM : ∀ x, N x → M x) : c.Clean M := by
  have hsub : (c.old N).Sub (c.old M) := ⟨fun _ hv => hv, fun _ ht => ht.imp hNM⟩
  exact ⟨h.acyclic, h.classes.mono hsub, fun y hy => (h.stack y hy).mono hsub, h.bounded⟩

namespace SymbolTable

theorem mem_bindings_of_remove {table : SymbolTable} {name x : String} {j : Judgment}
    (h : j ∈ (table.remove name).bindings x) : j ∈ table.bindings x := by
  rw [bindings_remove] at h
  split at h
  · rename_i hname
    exact hname ▸ List.mem_of_mem_tail h
  · exact h

theorem mem_bindings_of_flush {table : SymbolTable} {x : String} {j : Judgment}
    (h : j ∈ table.flush.bindings x) : j ∈ table.bindings x := by
  have hfold : ∀ (names : List String) (table : SymbolTable),
      j ∈ (names.foldl remove table).bindings x → j ∈ table.bindings x := by
    intro names
    induction names with
    | nil => exact fun _ h => h
    | cons name names ih => exact fun table h => mem_bindings_of_remove (ih _ h)
  exact hfold table.removals table h

end SymbolTable

namespace Inference

variable {s s' : Inference}

/-- What mentions no variable that is still to come: no type variable `$n` of the context, and no
term variable `$en`, whose number is not below the counter. -/
def old (s : Inference) : Region := s.types.old s.terms.Old

/-- Nothing in the context mentions what is not old, and the counters are within their range. -/
structure Clean (s : Inference) : Prop where
  types : s.types.Clean s.terms.Old
  terms : s.terms.nextVar < counterRange
  symbols : ∀ x, ∀ j ∈ s.symbols.bindings x, s.old.HoldsData j.data

/-- The second context has gone on counting. -/
structure Before (s s' : Inference) : Prop where
  types : s.types.Before s'.types
  terms : s.terms.nextVar ≤ s'.terms.nextVar

theorem Before.sub (h : s.Before s') : s.old.Sub s'.old :=
  ⟨fun _ hv => h.types.old hv, fun _ ht => ht.imp fun _ hx => hx.later h.terms⟩

/-- A later context is clean and has drawn more variables. -/
def evolution : Evolution Inference where
  later s s' := s'.Clean ∧ s.Before s'
  self h := ⟨h.1, ⟨.refl _, Nat.le_refl _⟩⟩
  trans h h' := ⟨h'.1, ⟨h.2.types.trans h'.2.types, Nat.le_trans h.2.terms h'.2.terms⟩⟩

theorem Clean.later (hs : s.Clean) : evolution.later s s := ⟨hs, ⟨.refl _, Nat.le_refl _⟩⟩

theorem Clean.of_types (hs : s.Clean) {types : TypeContext}
    (h : (TypeContext.evolution s.terms.Old).later s.types types) :
    evolution.later s { s with types } := by
  have hbefore : s.Before { s with types } := ⟨h.2, Nat.le_refl _⟩
  exact ⟨⟨h.1, hs.terms, fun x j hj d hd => (hs.symbols x j hj d hd).mono hbefore.sub⟩, hbefore⟩

theorem Clean.of_terms (hs : s.Clean) {terms : NameTable}
    (h : NameTable.evolution.later s.terms terms) : evolution.later s { s with terms } := by
  have hbefore : s.Before { s with terms } := ⟨.refl _, h.1⟩
  refine ⟨⟨hs.types.mono fun x hx => hx.later h.1, h.2, fun x j hj d hd => ?_⟩, hbefore⟩
  exact (hs.symbols x j hj d hd).mono hbefore.sub

theorem Clean.of_symbols (hs : s.Clean) (hterms : s'.terms = s.terms) (htypes : s'.types = s.types)
    (hsymbols : ∀ x, ∀ j ∈ s'.symbols.bindings x, s.old.HoldsData j.data) :
    evolution.later s s' := by
  have hold : s'.old = s.old := by rw [old, old, hterms, htypes]
  refine ⟨⟨by rw [hterms, htypes]; exact hs.types, by rw [hterms]; exact hs.terms, ?_⟩, ?_⟩
  · rw [hold]
    exact hsymbols
  · exact ⟨htypes ▸ .refl _, Nat.le_of_eq (by rw [hterms])⟩

theorem onTypes_leads {α : Type} {P : Region → α → Prop} {x : ContextM α} (hs : s.Clean)
    (hx : Leads (TypeContext.evolution s.terms.Old) (fun c a => P (c.old s.terms.Old) a) x
      s.types) : Leads evolution (fun s' a => P s'.old a) (onTypes x) s := by
  have hlater := hx.later
  cases hrun : x s.types with
  | ok a types =>
      rw [hrun] at hlater
      exact .of_ok (onTypes_of_ok hrun) (hs.of_types hlater) (hx.good a types hrun)
  | error f types =>
      rw [hrun] at hlater
      exact .of_error (onTypes_of_error hrun) (hs.of_types hlater)

theorem onTerms_leads {α : Type} {P : NameTable → α → Prop} {x : EStateM Fault NameTable α}
    (hs : s.Clean) (hx : Leads NameTable.evolution P x s.terms) :
    Leads evolution (fun s' a => P s'.terms a) (onTerms x) s := by
  have hlater := hx.later
  cases hrun : x s.terms with
  | ok a terms =>
      rw [hrun] at hlater
      exact .of_ok (onTerms_of_ok hrun) (hs.of_terms hlater) (hx.good a terms hrun)
  | error f terms =>
      rw [hrun] at hlater
      exact .of_error (onTerms_of_error hrun) (hs.of_terms hlater)

/-! ## The rules -/

theorem record_leads (hs : s.Clean) (step : Unit → Except Fault InferStep) :
    Leads evolution (fun _ _ => True) (record step) s := by
  refine ⟨keeps_record (P := evolution.later s) (fun s' _ h => ?_) step s hs.later, fun _ _ _ => trivial⟩
  exact evolution.trans h (h.1.of_symbols rfl rfl h.1.symbols)

theorem report_leads (hs : s.Clean) (r : Report) :
    Leads evolution (fun _ _ => True) (report r) s :=
  .of_ok rfl (hs.of_symbols rfl rfl hs.symbols) trivial

theorem fresh_leads (hs : s.Clean) :
    Leads evolution (fun s' m => s'.old.Holds m) (onTypes TypeContext.fresh) s :=
  onTypes_leads (P := fun R m => R.Holds m) hs (TypeContext.fresh_leads hs.types)

theorem instantiate_leads (hs : s.Clean) {y : Ty} (hy : s.old.HoldsTy y) :
    Leads evolution (fun s' m => s'.old.Holds m) (instantiate y) s := by
  refine .bind (.mapM (G := fun s' m => s'.old.Holds m) (fun h hm => hm.mono h.2.sub) hs.later
    (fun _ s' h => fresh_leads h.1) _) fun types s₁ h₁ htypes => ?_
  refine .bind (onTerms_leads h₁.1 (Body.indexedByFresh_leads h₁.1.terms _)) ?_
  rintro _ s₂ h₂ ⟨terms, hterms, rfl⟩
  have hy₂ : s₂.old.HoldsTy y := (hy.mono h₁.2.sub).mono h₂.2.sub
  exact .pure h₂.1.later (hy₂.openedBy (fun m hm => (htypes m hm).mono h₂.2.sub) hterms)

theorem var_leads (hs : s.Clean) (x : String) :
    Leads evolution (fun s' k => s'.old.HoldsData k.data) (var x) s := by
  refine .bind (.get hs.later) fun t s₁ h₁ ht => ?_
  subst ht
  cases hget : t.symbols.get? x with
  | none => exact .bind (report_leads h₁.1 _) fun _ s₂ h₂ _ => .pure h₂.1.later Region.holdsData_nil
  | some j =>
      have hj := Region.holdsData_judgment.mp (h₁.1.symbols x j (List.mem_of_head? hget))
      refine .bind (instantiate_leads h₁.1 hj.2) fun m s₂ h₂ hm => ?_
      refine .bind (record_leads h₂.1 _) fun _ s₃ h₃ _ => .pure h₃.1.later ?_
      refine Region.holdsData_judgment.mpr ⟨?_, Region.holdsTy_mono.mpr (hm.mono h₃.2.sub)⟩
      exact (evolution.trans h₂ h₃).2.sub.terms _ hj.1

theorem app_leads (hs : s.Clean) (ev : Evaluator) {j₀ j₁ : Judgment}
    (hj₀ : s.old.HoldsData j₀.data) (hj₁ : s.old.HoldsData j₁.data) :
    Leads evolution (fun s' k => s'.old.HoldsData k.data) (app ev j₀ j₁) s := by
  obtain ⟨he₀, hy₀⟩ := Region.holdsData_judgment.mp hj₀
  obtain ⟨he₁, hy₁⟩ := Region.holdsData_judgment.mp hj₁
  refine .bind (instantiate_leads hs hy₀) fun t₀ s₁ h₁ ht₀ => ?_
  refine .bind (instantiate_leads h₁.1 (hy₁.mono h₁.2.sub)) fun t₁ s₂ h₂ ht₁ => ?_
  refine .bind (fresh_leads h₂.1) fun t₂ s₃ h₃ ht₂ => ?_
  have harrow : s₃.old.Holds (.arrow t₁ t₂) := TypeContext.holds_two (ht₁.mono h₃.2.sub) ht₂
  have ht₀' : s₃.old.Holds t₀ := (ht₀.mono h₂.2.sub).mono h₃.2.sub
  refine .bind (onTypes_leads (P := fun _ _ => True) h₃.1
    (TypeContext.unify_leads h₃.1.types _ _ ht₀' harrow)) fun status s₄ h₄ _ => ?_
  split
  · refine .bind (.get h₄.1.later) fun t s₅ h₅ ht => ?_
    subst ht
    have hm : t.old.Holds (t.types.find t₂) :=
      h₅.1.types.classes.find_type h₅.1.types.acyclic ((ht₂.mono h₄.2.sub).mono h₅.2.sub)
    refine .bind (record_leads h₅.1 _) fun _ s₆ h₆ _ => .pure h₆.1.later ?_
    have hlater := evolution.trans (evolution.trans (evolution.trans (evolution.trans
      (evolution.trans h₁ h₂) h₃) h₄) h₅) h₆
    refine Region.holdsData_judgment.mpr ⟨?_, Region.holdsTy_mono.mpr (hm.mono h₆.2.sub)⟩
    exact hlater.2.sub.terms _ (Term.NamedBy.app he₀ he₁)
  · exact .bind (report_leads h₄.1 _) fun _ s₅ h₅ _ => .pure h₅.1.later Region.holdsData_nil

theorem add_leads (hs : s.Clean) (x : String) {y : Ty} (hy : s.old.HoldsTy y) :
    Leads evolution (fun _ _ => True) (add x y) s := by
  refine .of_ok rfl (hs.of_symbols rfl rfl fun z j hj => ?_) trivial
  rcases SymbolTable.mem_bindings_add hj with ⟨-, rfl⟩ | hj
  · have hconst : (Term.const x).NamedBy s.terms.Old := Term.namedBy_const x
    exact Region.holdsData_judgment.mpr ⟨hconst, hy⟩
  · exact hs.symbols z j hj

theorem remove_leads (hs : s.Clean) (x : String) :
    Leads evolution (fun _ _ => True) (remove x) s :=
  .of_ok rfl (hs.of_symbols rfl rfl fun z j hj =>
    hs.symbols z j (SymbolTable.mem_bindings_of_remove hj)) trivial

theorem abs_leads (hs : s.Clean) (x : String) :
    Leads evolution (fun s' premise => s'.old.HoldsData premise.data) (abs x) s := by
  refine .bind (fresh_leads hs) fun domain s₁ h₁ hdomain => ?_
  refine .bind (add_leads h₁.1 x (Region.holdsTy_mono.mpr hdomain)) fun _ s₂ h₂ _ => ?_
  exact .pure h₂.1.later (Region.holdsData_mono.mpr (hdomain.mono h₂.2.sub))

theorem dischargeAbs_leads (hs : s.Clean) {premise : OpenAbs} {body : Judgment}
    (hpremise : s.old.HoldsData premise.data) (hbody : s.old.HoldsData body.data) :
    Leads evolution (fun s' k => s'.old.HoldsData k.data) (dischargeAbs premise body) s := by
  obtain ⟨hterm, htype⟩ := Region.holdsData_judgment.mp hbody
  have hdomain : s.old.Holds premise.domain := Region.holdsData_mono.mp hpremise
  refine .bind (remove_leads hs premise.param) fun _ s₁ h₁ _ => ?_
  refine .bind (instantiate_leads h₁.1 (htype.mono h₁.2.sub)) fun range s₂ h₂ hrange => ?_
  refine .bind (onTerms_leads h₂.1 (NameTable.freshVar_leads h₂.1.terms)) fun v s₃ h₃ hv => ?_
  have h₁₃ := evolution.trans (evolution.trans h₁ h₂) h₃
  -- the fresh name is all that the term gets in addition
  refine .bind (.ofExcept h₃.1.later _) fun e s₄ h₄ he => ?_
  refine .bind (.ofExcept h₄.1.later _) fun t s₅ h₅ ht => ?_
  have hnamed : t.NamedBy s₃.terms.Old :=
    (Term.NamedBy.abstractConst (h₁₃.2.sub.terms _ hterm) hv he).bind (by simpa using hv) ht
  refine .bind (record_leads h₅.1 _) fun _ s₆ h₆ _ => .pure h₆.1.later ?_
  have h₃₆ := evolution.trans (evolution.trans h₄ h₅) h₆
  refine Region.holdsData_judgment.mpr ⟨h₃₆.2.sub.terms _ hnamed, Region.holdsTy_mono.mpr ?_⟩
  exact TypeContext.holds_two (hdomain.mono (evolution.trans h₁₃ h₃₆).2.sub)
    (hrange.mono (evolution.trans h₃ h₃₆).2.sub)

theorem letIn_leads (hs : s.Clean) (x : String) {bound : Judgment}
    (hbound : s.old.HoldsData bound.data) :
    Leads evolution (fun s' premise => s'.old.HoldsData premise.data) (letIn x bound) s := by
  obtain ⟨hterm, htype⟩ := Region.holdsData_judgment.mp hbound
  refine .bind (instantiate_leads hs htype) fun m s₁ h₁ hm => ?_
  refine .bind (.get h₁.1.later) fun t s₂ h₂ ht => ?_
  subst ht
  refine .bind (record_leads h₂.1 _) fun _ s₃ h₃ _ => ?_
  have hresolved := h₂.1.types.classes.resolve h₂.1.types.acyclic (hm.mono h₂.2.sub)
  have hgeneral := (Region.holdsTy_generalize hresolved t.types.old_wildcard).mono h₃.2.sub
  refine .bind (add_leads h₃.1 x (Region.holdsTy_toType hgeneral.binders hgeneral.body)) ?_
  intro _ s₄ h₄ _
  have hlater := evolution.trans (evolution.trans (evolution.trans h₁ h₂) h₃) h₄
  exact .pure h₄.1.later (Region.holdsData_term.mpr (hlater.2.sub.terms _ hterm))

theorem dischargeLet_leads (hs : s.Clean) {premise : OpenLet} {body : Judgment}
    (hpremise : s.old.HoldsData premise.data) (hbody : s.old.HoldsData body.data) :
    Leads evolution (fun s' k => s'.old.HoldsData k.data) (dischargeLet premise body) s := by
  obtain ⟨hterm, htype⟩ := Region.holdsData_judgment.mp hbody
  have hassignment : s.old.terms premise.assignment := Region.holdsData_term.mp hpremise
  refine .bind (remove_leads hs premise.name) fun _ s₁ h₁ _ => ?_
  refine .bind (record_leads h₁.1 _) fun _ s₂ h₂ _ => .pure h₂.1.later ?_
  have hlater := evolution.trans h₁ h₂
  have hdefine : s.old.terms (.define .letIn premise.name premise.assignment body.term) :=
    Term.NamedBy.define .letIn premise.name hassignment hterm
  exact Region.holdsData_judgment.mpr ⟨hlater.2.sub.terms _ hdefine, htype.mono hlater.2.sub⟩

end Inference

/-! ## The fresh variables of a use -/

namespace Inference

variable {s s' : Inference}

/-- The fresh type variables that are taken when a type is opened. -/
def freshTypes (s : Inference) (y : Ty) : List TypeVariable :=
  (List.range' s.types.nextVar y.scheme.bound.length).map s.types.numbered

/-- The fresh term variables that are taken when a type is opened. -/
def freshTerms (s : Inference) (y : Ty) : List Variable :=
  (List.range' s.terms.nextVar y.toPolytype.body.arity).map NameTable.numbered

theorem mem_freshTypes {y : Ty} {v : TypeVariable} : v ∈ s.freshTypes y ↔
    ∃ k, s.types.nextVar ≤ k ∧ k < s.types.nextVar + y.scheme.bound.length ∧
      v = s.types.numbered k := by
  simp only [freshTypes, List.mem_map, List.mem_range'_1, and_assoc, eq_comm]

theorem mem_freshTerms {y : Ty} {v : Variable} : v ∈ s.freshTerms y ↔
    ∃ k, s.terms.nextVar ≤ k ∧ k < s.terms.nextVar + y.toPolytype.body.arity ∧
      v = NameTable.numbered k := by
  simp only [freshTerms, List.mem_map, List.mem_range'_1, and_assoc, eq_comm]

/-- The type with its fresh variables filled in. -/
def opened (s : Inference) (y : Ty) : Monotype :=
  y.openedBy ((s.freshTypes y).map .var) ((s.freshTerms y).map .var)

/-- The context after a type has been opened. -/
def afterOpening (y : Ty) (s : Inference) : Inference :=
  drawTerms y.toPolytype.body.arity (drawTypes y.scheme.bound.length s)

theorem opened_eq (s : Inference) (y : Ty) :
    s.opened y = y.openedBy (typeSupply.next s y.scheme.bound.length)
      (termSupply.next s.terms y.toPolytype.body.arity) := by
  rw [opened, freshTypes, freshTerms, List.map_map, List.map_map]
  rfl

/-- What can be written is recorded. -/
theorem record_of_written {step : Unit → Except Fault InferStep}
    (h : s.tracing = true → ∃ written, step () = .ok written) : ∃ s', record step s = .ok () s' := by
  show ∃ s', (if s.tracing then _ else _ : InferM Unit) s = .ok () s'
  split
  case isTrue htracing =>
    obtain ⟨written, hwritten⟩ := h htracing
    rw [hwritten]
    exact ⟨_, rfl⟩
  case isFalse => exact ⟨s, rfl⟩

theorem terms_of_record {step : Unit → Except Fault InferStep} {u : Unit}
    (h : record step s = .ok u s') : s'.terms = s.terms :=
  (keeps_record (P := fun s' => s'.terms = s.terms) (fun _ _ h => h) step).of_ok h rfl

/-- Opening a type takes its fresh variables off the counters, and does nothing else. -/
theorem instantiate_opens {y : Ty} {m : Monotype} (h : instantiate y s = .ok m s') :
    m = s.opened y ∧ s' = s.afterOpening y := by
  rw [opened_eq]
  rcases instantiate_cases y s with hopen | ⟨_, hopen, -⟩
  · rw [hopen] at h
    cases h
    exact ⟨rfl, rfl⟩
  · rw [hopen] at h
    cases h

/-- A use of a name opens its type with fresh variables, which are counted off. -/
theorem var_opens {x : String} {i j : Judgment} (hi : s.symbols.get? x = some i)
    (h : var x s = .ok (.concluded j) s') :
    j = ⟨i.term, .mono (s.opened i.type)⟩ ∧
    s'.types.nextVar = s.types.nextVar + i.type.scheme.bound.length ∧
    s'.terms.nextVar = s.terms.nextVar + i.type.toPolytype.body.arity := by
  unfold var at h
  rw [Stateful.get_then, hi] at h
  obtain ⟨m, s₁, hm, h⟩ := Stateful.bind_eq_ok.mp h
  obtain ⟨_, s₂, hrecord, h⟩ := Stateful.bind_eq_ok.mp h
  cases h
  obtain ⟨rfl, rfl⟩ := instantiate_opens hm
  rw [(record_eq_ok hrecord).2, terms_of_record hrecord]
  exact ⟨rfl, rfl, rfl⟩

/-- A type that can be written can be written once it is opened. -/
theorem opened_legible {y : Ty} (hy : y.Legible) (s : Inference) : (s.opened y).Legible := by
  have hbody : (y.toPolytype.body.openedBy ((s.freshTerms y).map .var)).Legible := by
    obtain ⟨text, htext⟩ := Ty.legible_iff.mp hy
    cases hbody : y.toPolytype.body with
    | mono m => exact ⟨text, by rwa [hbody] at htext⟩
    | dependent d =>
        rw [hbody] at htext
        exact Monotype.legible_inst.mpr (DependentType.legible_of_params htext)
  refine (Monotype.legible_subst fun v _ => ?_).mpr hbody
  rcases Monotype.assign_zip_cases y.scheme.bound ((s.freshTypes y).map .var) v with hself | hmem
  · rw [hself]
    exact Monotype.legible_var
  · obtain ⟨w, -, hw⟩ := List.mem_map.mp hmem
    rw [← hw]
    exact Monotype.legible_var

/-- As long as both counters have room for it, a use concludes, if its type can be written for the
record or none is kept. -/
theorem var_of_room {x : String} {i : Judgment} (hi : s.symbols.get? x = some i)
    (htypes : s.types.nextVar + i.type.scheme.bound.length < counterRange)
    (hterms : s.terms.nextVar + i.type.toPolytype.body.arity < counterRange)
    (hwritten : s.tracing = true → i.type.Legible) : ∃ j s', var x s = .ok (.concluded j) s' := by
  rcases instantiate_cases i.type s with hopen | ⟨_, -, -, hfull⟩
  · unfold var
    rw [Stateful.get_then, hi]
    simp only
    rw [Stateful.bind_of_ok hopen, ← opened_eq]
    have hrecord (rule : InferRule) : ∃ s', record (fun _ => do
        return ⟨i.term.display, ← (s.opened i.type).render, rule, x ++ ": " ++ (← i.type.render)⟩)
        (s.afterOpening i.type) = .ok () s' := by
      refine record_of_written fun htracing => ?_
      obtain ⟨_, hm⟩ := opened_legible (hwritten htracing) s
      obtain ⟨_, hy⟩ := hwritten htracing
      exact ⟨_, bind_eq_ok.mpr ⟨_, hm, bind_eq_ok.mpr ⟨_, hy, rfl⟩⟩⟩
    obtain ⟨s', hs'⟩ := hrecord _
    exact ⟨_, s', Stateful.bind_of_ok hs'⟩
  · omega

end Inference

/-! ## Calls and their answers -/

namespace Call

/-- All calls but the one that replaces the name table. -/
def Orderly : Call → Prop
  | setTerms _ => False
  | _ => True

/-- The types and terms that a call is given. -/
def arguments : Call → List Datum
  | app _ operator operand => operator.data ++ operand.data
  | dischargeAbs premise body => premise.data ++ body.data
  | letIn _ bound => bound.data
  | dischargeLet premise body => premise.data ++ body.data
  | instantiate y => [.type y]
  | add _ y => [.type y]
  | onTypes op => op.arguments
  | _ => []

/-- The types and terms that a call answers with. -/
def answers (s : Inference) : Call → List Datum
  | var x => answersOf Conclusion.data (Inference.var x s)
  | app ev operator operand => answersOf Conclusion.data (Inference.app ev operator operand s)
  | abs x => answersOf OpenAbs.data (Inference.abs x s)
  | dischargeAbs premise body => answersOf Conclusion.data (Inference.dischargeAbs premise body s)
  | letIn x bound => answersOf OpenLet.data (Inference.letIn x bound s)
  | dischargeLet premise body => answersOf Conclusion.data (Inference.dischargeLet premise body s)
  | instantiate y => answersOf Monotype.data (Inference.instantiate y s)
  | onTypes op => op.answers s.types
  | _ => []

variable {s : Inference}

/-- A call with old variables leaves a clean context behind, and answers with old variables. -/
theorem run_leads (hs : s.Clean) (call : Call) (hcall : call.Orderly)
    (hargs : s.old.HoldsData call.arguments) :
    Inference.evolution.later s (call.run s) ∧ (call.run s).old.HoldsData (call.answers s) := by
  cases call with
  | var x => exact (Inference.var_leads hs x).holdsData
  | app ev operator operand =>
      obtain ⟨hoperator, hoperand⟩ := List.forall_mem_append.mp hargs
      exact (Inference.app_leads hs ev hoperator hoperand).holdsData
  | abs x => exact (Inference.abs_leads hs x).holdsData
  | dischargeAbs premise body =>
      obtain ⟨hpremise, hbody⟩ := List.forall_mem_append.mp hargs
      exact (Inference.dischargeAbs_leads hs hpremise hbody).holdsData
  | letIn x bound => exact (Inference.letIn_leads hs x hargs).holdsData
  | dischargeLet premise body =>
      obtain ⟨hpremise, hbody⟩ := List.forall_mem_append.mp hargs
      exact (Inference.dischargeLet_leads hs hpremise hbody).holdsData
  | instantiate y =>
      have hopen := Inference.instantiate_leads hs (Region.holdsData_type.mp hargs)
      exact (hopen.imp fun _ _ _ hm => Region.holdsData_mono.mpr hm).holdsData
  | add x y =>
      have hadd := Inference.add_leads hs x (Region.holdsData_type.mp hargs)
      exact ⟨hadd.later, Region.holdsData_nil⟩
  | remove x => exact ⟨(Inference.remove_leads hs x).later, Region.holdsData_nil⟩
  | flushRemovals =>
      refine ⟨hs.of_symbols rfl rfl fun x j hj => ?_, Region.holdsData_nil⟩
      exact hs.symbols x j (SymbolTable.mem_bindings_of_flush hj)
  | removeLater x => exact ⟨hs.of_symbols rfl rfl hs.symbols, Region.holdsData_nil⟩
  | report r => exact ⟨hs.of_symbols rfl rfl hs.symbols, Region.holdsData_nil⟩
  | takeTrace => exact ⟨hs.of_symbols rfl rfl hs.symbols, Region.holdsData_nil⟩
  | enableTracing =>
      have hop := Operation.run_leads hs.types .enableTracing Region.holdsData_nil
      have htypes := hs.of_types hop.1
      exact ⟨Inference.evolution.trans htypes (htypes.1.of_symbols rfl rfl htypes.1.symbols),
        Region.holdsData_nil⟩
  | onTypes op =>
      have hop := Operation.run_leads hs.types op hargs
      exact ⟨hs.of_types hop.1, hop.2⟩
  | setTerms terms => exact hcall.elim

end Call

/-! ## Requests -/

/-- What a client can ask of a context: a call, a fresh term variable, or what the context knows. -/
inductive Request where
  | call (call : Call)
  | freshTerm
  | get (x : String)
  | generalize (m : Monotype)
  | find (m : Monotype)
  | findKind (t : Term)
  | resolve (m : Monotype)

namespace Request

def Orderly : Request → Prop
  | call c => c.Orderly
  | _ => True

/-- The context that a request leaves behind, however it ends. -/
def run (s : Inference) : Request → Inference
  | call c => c.run s
  | freshTerm => endOf (Inference.onTerms NameTable.freshVar s)
  | _ => s

/-- The types and terms that a request brings with it. -/
def arguments : Request → List Datum
  | call c => c.arguments
  | generalize m => m.data
  | find m => m.data
  | findKind t => [.term t]
  | resolve m => m.data
  | _ => []

/-- The types and terms that are handed out in answer to a request. -/
def answers (s : Inference) : Request → List Datum
  | call c => c.answers s
  | freshTerm => answersOf (fun v => [.term (.var v)]) (Inference.onTerms NameTable.freshVar s)
  | get x => ((s.symbols.get? x).map Judgment.data).getD []
  | generalize m => [.type (.poly (s.generalize m))]
  | find m => (s.types.find m).data
  | findKind t => [.term (s.types.findKind t)]
  | resolve m => (s.types.resolve m).data

theorem run_leads {s : Inference} (hs : s.Clean) (request : Request) (horderly : request.Orderly)
    (hargs : s.old.HoldsData request.arguments) :
    Inference.evolution.later s (request.run s) ∧
      (request.run s).old.HoldsData (request.answers s) := by
  have hclasses := hs.types.classes
  have hacyclic := hs.types.acyclic
  cases request with
  | call c => exact c.run_leads hs horderly hargs
  | freshTerm =>
      have hfresh := Inference.onTerms_leads hs (NameTable.freshVar_leads hs.terms)
      refine Leads.holdsData (hfresh.imp fun s' v _ hv => Region.holdsData_term.mpr ?_)
      exact Term.namedBy_var.mpr hv
  | get x =>
      refine ⟨hs.later, ?_⟩
      show s.old.HoldsData (((s.symbols.get? x).map Judgment.data).getD [])
      cases hget : s.symbols.get? x with
      | none => exact Region.holdsData_nil
      | some j => exact hs.symbols x j (List.mem_of_head? hget)
  | generalize m =>
      have hm : s.old.Holds (s.types.resolve m) :=
        hclasses.resolve hacyclic (Region.holdsData_mono.mp hargs)
      have hgeneral := Region.holdsTy_generalize hm s.types.old_wildcard
      exact ⟨hs.later, Region.holdsData_type.mpr hgeneral⟩
  | find m =>
      have hm := hclasses.find_type hacyclic (Region.holdsData_mono.mp hargs)
      exact ⟨hs.later, Region.holdsData_mono.mpr hm⟩
  | findKind t =>
      have ht := hclasses.find_kind hacyclic (Region.holdsData_term.mp hargs)
      exact ⟨hs.later, Region.holdsData_term.mpr ht⟩
  | resolve m =>
      have hm := hclasses.resolve hacyclic (Region.holdsData_mono.mp hargs)
      exact ⟨hs.later, Region.holdsData_mono.mpr hm⟩

end Request

/-! ## Dialogues -/

/-- A context, and all that it has handed out so far. -/
structure Dialogue where
  state : Inference
  handed : List Datum

namespace Dialogue

/-- A new context, with given numbers for the first fresh variables. -/
def start (typeOffset termOffset : Nat) : Dialogue := ⟨.startingAt typeOffset termOffset, []⟩

/-- A request is made and answered. -/
def ask (d : Dialogue) (request : Request) : Dialogue :=
  ⟨request.run d.state, request.answers d.state ++ d.handed⟩

/-- One request is answered. What it brings with it has been handed out before, or mentions no
variable that is still to come. -/
inductive Step : Dialogue → Dialogue → Prop
  | answer {d : Dialogue} (request : Request) : request.Orderly →
      (∀ x ∈ request.arguments, d.state.old.HoldsDatum x ∨ x ∈ d.handed) → Step d (d.ask request)

/-- Everything in the context and everything handed out mentions only what is in the region: the
classes, the symbol table with all that is shadowed, the stack, open premises and conclusions. -/
structure Within (R : Region) (d : Dialogue) : Prop where
  classes : d.state.types.known.Confined R
  symbols : ∀ x, ∀ j ∈ d.state.symbols.bindings x, R.HoldsData j.data
  stack : ∀ y ∈ d.state.types.stack, R.HoldsTy y
  handed : R.HoldsData d.handed

variable {d e : Dialogue}

theorem Within.mono {R S : Region} (h : d.Within R) (hRS : R.Sub S) : d.Within S where
  classes := h.classes.mono hRS
  symbols x j hj y hy := (h.symbols x j hj y hy).mono hRS
  stack y hy := (h.stack y hy).mono hRS
  handed x hx := (h.handed x hx).mono hRS

/-- The context is clean, and so is all that it has handed out. -/
structure Clean (d : Dialogue) : Prop where
  state : d.state.Clean
  handed : d.state.old.HoldsData d.handed

theorem Clean.within (h : d.Clean) : d.Within d.state.old :=
  ⟨h.state.types.classes, h.state.symbols, h.state.types.stack, h.handed⟩

theorem clean_start {typeOffset termOffset : Nat} (htype : typeOffset < counterRange)
    (hterm : termOffset < counterRange) : (start typeOffset termOffset).Clean := by
  refine ⟨⟨⟨TypeContext.acyclic_startingAt _ _, ⟨fun hget => ?_, fun hget => ?_⟩, ?_, htype⟩, hterm,
    fun x j hj => ?_⟩, Region.holdsData_nil⟩
  · cases hget.symm.trans (ClassMap.get?_empty _)
  · cases hget.symm.trans (ClassMap.get?_empty _)
  · exact fun y hy => absurd hy List.not_mem_nil
  · rw [show (start typeOffset termOffset).state.symbols = .empty from rfl,
      SymbolTable.bindings_empty] at hj
    cases hj

theorem Step.clean (h : Step d e) (hd : d.Clean) : e.Clean ∧ d.state.Before e.state := by
  cases h with
  | answer request horderly hargs =>
      have hargs' : d.state.old.HoldsData request.arguments :=
        fun x hx => (hargs x hx).elim id (hd.handed x)
      obtain ⟨hlater, hanswers⟩ := request.run_leads hd.state horderly hargs'
      refine ⟨⟨hlater.1, List.forall_mem_append.mpr ⟨hanswers, fun x hx => ?_⟩⟩, hlater.2⟩
      exact (hd.handed x hx).mono hlater.2.sub

/-- What one request preserves, a dialogue preserves. -/
theorem Clean.run (hd : d.Clean) (h : ReflTransGen Step d e) :
    e.Clean ∧ d.state.Before e.state := by
  induction h with
  | refl => exact ⟨hd, hd.state.later.2⟩
  | tail _ hstep ih =>
      obtain ⟨hclean, hbefore⟩ := hstep.clean ih.1
      exact ⟨hclean, (Inference.evolution.trans ⟨ih.1.state, ih.2⟩ ⟨hclean.state, hbefore⟩).2⟩

/-- Everything but one type variable. -/
def withoutType (v : TypeVariable) : Region := ⟨(· ≠ v), fun _ => True⟩

/-- Everything but the term variables of one name. -/
def withoutName (x : String) : Region := ⟨fun _ => True, fun t => t.NamedBy (· ≠ x)⟩

theorem Clean.without_type (h : d.Clean) {k : Nat} (hk : d.state.types.nextVar ≤ k) :
    d.Within (withoutType (d.state.types.numbered k)) :=
  h.within.mono ⟨fun _ hv => hv k hk, fun _ _ => trivial⟩

theorem Clean.without_name (h : d.Clean) {k : Nat} (hk : d.state.terms.nextVar ≤ k) :
    d.Within (withoutName (NameTable.numbered k).name) :=
  h.within.mono ⟨fun _ _ => trivial, fun _ ht => ht.imp fun _ hx => hx k hk⟩

/-- A name is used: it has an entry, and the use concludes. -/
structure Use (d : Dialogue) (x : String) (i j : Judgment) (e : Dialogue) : Prop where
  entry : d.state.symbols.get? x = some i
  concluded : Inference.var x d.state = .ok (.concluded j) e.state
  handed : e.handed = j.data ++ d.handed

section

variable {x : String} {i j : Judgment}

theorem Use.step (h : Use d x i j e) : Step d e := by
  have hrequest : Step d (d.ask (.call (.var x))) :=
    .answer (.call (.var x)) trivial fun _ hx => absurd hx List.not_mem_nil
  have hstate : Request.run d.state (.call (.var x)) = e.state := by
    show endOf (Inference.var x d.state) = e.state
    rw [h.concluded]
    rfl
  have hanswers : Request.answers d.state (.call (.var x)) = j.data := by
    show answersOf Conclusion.data (Inference.var x d.state) = j.data
    rw [h.concluded]
    rfl
  rw [ask, hstate, hanswers, ← h.handed] at hrequest
  exact hrequest

/-- The variables of a use are below those of everything that comes later. -/
theorem Use.disjoint_later {e' : Dialogue} (h : Use d x i j e) (hd : d.Clean)
    (hrun : ReflTransGen Step e e') (y : Ty) :
    (d.state.freshTypes i.type).Disjoint (e'.state.freshTypes y) ∧
      ((d.state.freshTerms i.type).map Variable.name).Disjoint
        ((e'.state.freshTerms y).map Variable.name) := by
  obtain ⟨he, hbefore⟩ := h.step.clean hd
  obtain ⟨-, hbefore'⟩ := he.run hrun
  obtain ⟨-, htypes, hterms⟩ := Inference.var_opens h.entry h.concluded
  constructor
  · intro v hv hv'
    obtain ⟨k, -, hk, rfl⟩ := Inference.mem_freshTypes.mp hv
    obtain ⟨k', hk', -, heq⟩ := Inference.mem_freshTypes.mp hv'
    have hle := hbefore'.types.nextVar
    have hkk' : k = k' := append_repr_inj (congrArg TypeVariable.name heq)
    omega
  · intro name hname hname'
    obtain ⟨v, hv, rfl⟩ := List.mem_map.mp hname
    obtain ⟨v', hv', heq⟩ := List.mem_map.mp hname'
    obtain ⟨k, -, hk, rfl⟩ := Inference.mem_freshTerms.mp hv
    obtain ⟨k', hk', -, rfl⟩ := Inference.mem_freshTerms.mp hv'
    have hle := hbefore'.terms
    have hkk' : k' = k := append_repr_inj heq
    omega

end

/-- What makes the variables that a context draws fresh. -/
structure DrawsFresh (d : Dialogue) : Prop where
  /-- Every variable of the context's sequences that occurs anywhere is below the counter. -/
  below : d.Within d.state.old
  type_unused : ∀ v c, TypeContext.freshVar d.state.types = .ok v c → d.Within (withoutType v)
  term_unused : ∀ v names, NameTable.freshVar d.state.terms = .ok v names →
    d.Within (withoutName v.name)
  /-- A use concludes while there are variables left for it, unless it cannot be written for the
  record. -/
  use_concludes : ∀ x i, d.state.symbols.get? x = some i →
    d.state.types.nextVar + i.type.scheme.bound.length < counterRange →
    d.state.terms.nextVar + i.type.toPolytype.body.arity < counterRange →
    (d.state.tracing = true → i.type.Legible) → ∃ j e, Use d x i j e
  /-- It opens the entry of the name with variables that occur nowhere. -/
  use_opens : ∀ x i j e, Use d x i j e → j = ⟨i.term, .mono (d.state.opened i.type)⟩ ∧
    (∀ v ∈ d.state.freshTypes i.type, d.Within (withoutType v)) ∧
    (∀ v ∈ d.state.freshTerms i.type, d.Within (withoutName v.name))
  /-- A later use, of the same name or of another, has none of them. -/
  uses_disjoint : ∀ x i j e x' i' j' e' e'', Use d x i j e → ReflTransGen Step e e' →
    Use e' x' i' j' e'' →
    (d.state.freshTypes i.type).Disjoint (e'.state.freshTypes i'.type) ∧
      ((d.state.freshTerms i.type).map Variable.name).Disjoint
        ((e'.state.freshTerms i'.type).map Variable.name)
  /-- Before the end of its range a counter gives out a variable, and goes up. -/
  types_draw : d.state.types.nextVar < 4294967295 → ∃ v c,
    TypeContext.freshVar d.state.types = .ok v c ∧ c.nextVar = d.state.types.nextVar + 1
  terms_draw : d.state.terms.nextVar < 4294967295 → ∃ v names,
    NameTable.freshVar d.state.terms = .ok v names ∧ names.nextVar = d.state.terms.nextVar + 1
  /-- At the end of its range a counter gives out none, and stays there whatever comes. -/
  types_end : d.state.types.nextVar = 4294967295 →
    TypeContext.freshVar d.state.types = .error .overflow d.state.types ∧
      ∀ e, ReflTransGen Step d e → e.state.types.nextVar = 4294967295
  terms_end : d.state.terms.nextVar = 4294967295 →
    NameTable.freshVar d.state.terms = .error .overflow d.state.terms ∧
      ∀ e, ReflTransGen Step d e → e.state.terms.nextVar = 4294967295

theorem Clean.type_unused (hd : d.Clean) {v : TypeVariable} {c : TypeContext}
    (h : TypeContext.freshVar d.state.types = .ok v c) : d.Within (withoutType v) := by
  rw [TypeContext.freshVar_eq] at h
  split at h <;> cases h
  exact hd.without_type (Nat.le_refl _)

theorem Clean.term_unused (hd : d.Clean) {v : Variable} {names : NameTable}
    (h : NameTable.freshVar d.state.terms = .ok v names) : d.Within (withoutName v.name) := by
  rw [NameTable.freshVar_eq] at h
  split at h <;> cases h
  exact hd.without_name (Nat.le_refl _)

theorem Clean.use_unused (hd : d.Clean) (y : Ty) :
    (∀ v ∈ d.state.freshTypes y, d.Within (withoutType v)) ∧
      ∀ v ∈ d.state.freshTerms y, d.Within (withoutName v.name) := by
  constructor
  · intro v hv
    obtain ⟨k, hk, -, rfl⟩ := Inference.mem_freshTypes.mp hv
    exact hd.without_type hk
  · intro v hv
    obtain ⟨k, hk, -, rfl⟩ := Inference.mem_freshTerms.mp hv
    exact hd.without_name hk

/-- Counters do not go back and do not leave their range, so at its end they stay. -/
theorem Clean.types_stay (hd : d.Clean) (hend : d.state.types.nextVar = 4294967295)
    (h : ReflTransGen Step d e) : e.state.types.nextVar = 4294967295 := by
  obtain ⟨he, hbefore⟩ := hd.run h
  exact Nat.le_antisymm (Nat.le_of_lt_succ he.state.types.bounded) (hend ▸ hbefore.types.nextVar)

theorem Clean.terms_stay (hd : d.Clean) (hend : d.state.terms.nextVar = 4294967295)
    (h : ReflTransGen Step d e) : e.state.terms.nextVar = 4294967295 := by
  obtain ⟨he, hbefore⟩ := hd.run h
  exact Nat.le_antisymm (Nat.le_of_lt_succ he.state.terms) (hend ▸ hbefore.terms)

/-- **Drawn variables are fresh.** Every dialogue with a new context, whose first variables have any
numbers in the range, draws fresh variables only. -/
theorem fresh_variables {typeOffset termOffset : Nat} (htype : typeOffset < counterRange)
    (hterm : termOffset < counterRange) (h : ReflTransGen Step (start typeOffset termOffset) d) :
    d.DrawsFresh := by
  obtain ⟨hd, -⟩ := (clean_start htype hterm).run h
  exact {
    below := hd.within
    type_unused := fun v c hv => hd.type_unused hv
    term_unused := fun v names hv => hd.term_unused hv
    use_concludes := by
      intro x i hi htypes hterms hwritten
      obtain ⟨j, s, hrun⟩ := Inference.var_of_room hi htypes hterms hwritten
      exact ⟨j, ⟨s, _⟩, ⟨hi, hrun, rfl⟩⟩
    use_opens := fun x i j e huse =>
      ⟨(Inference.var_opens huse.entry huse.concluded).1, hd.use_unused i.type⟩
    uses_disjoint := fun x i j e x' i' j' e' e'' huse hrun _ =>
      huse.disjoint_later hd hrun i'.type
    types_draw := fun hbelow => TypeContext.freshVar_below hbelow
    terms_draw := fun hbelow => NameTable.freshVar_below hbelow
    types_end := fun hend => ⟨TypeContext.freshVar_at_end hend, fun e => hd.types_stay hend⟩
    terms_end := fun hend => ⟨NameTable.freshVar_at_end hend, fun e => hd.terms_stay hend⟩ }

/-- A new context with one type variable left, to which `id : ∀a. a → a` is added. -/
def oneLeft : Dialogue :=
  let a : TypeVariable := ⟨"a", 0⟩
  (start 4294967294 0).ask (.call (.add "id" (.poly ⟨[a], .mono (.arrow (.var a) (.var a))⟩)))

theorem oneLeft_step : Step (start 4294967294 0) oneLeft := by
  refine .answer _ trivial fun x hx => .inl ?_
  obtain rfl := List.mem_singleton.mp hx
  have ha : (start 4294967294 0).state.old.types ⟨"a", 0⟩ := by
    refine TypeContext.old_of_unmarked ?_
    decide
  refine ⟨fun v hv => ?_, TypeContext.holds_two (Region.holds_var.mpr ha) (Region.holds_var.mpr ha)⟩
  obtain rfl := List.mem_singleton.mp hv
  exact ha

/-- The last type variable goes to a use of `id`, and there is none for another. -/
theorem fresh_variables_to_the_last : oneLeft.DrawsFresh ∧
    ∃ i j e, Use oneLeft "id" i j e ∧ oneLeft.state.freshTypes i.type = [⟨"$4294967294", 0⟩] ∧
      e.DrawsFresh ∧ e.state.types.nextVar = 4294967295 ∧
      TypeContext.freshVar e.state.types = .error .overflow e.state.types := by
  have hfresh := fresh_variables (by decide) (by decide) (.single oneLeft_step)
  obtain ⟨j, e, huse⟩ := hfresh.use_concludes "id" _ rfl (by decide) (by decide)
    (fun h => by cases h)
  have hfresh' := fresh_variables (by decide) (by decide)
    ((ReflTransGen.single oneLeft_step).tail huse.step)
  have hend : e.state.types.nextVar = 4294967295 :=
    (Inference.var_opens huse.entry huse.concluded).2.1
  exact ⟨hfresh, _, j, e, huse, by decide +kernel, hfresh', hend, (hfresh'.types_end hend).1⟩

end Dialogue

end IndexedLambda
