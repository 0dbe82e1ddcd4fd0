import IndexedLambda.Proofs.Inference.Fresh
import IndexedLambda.Proofs.Inference.Scope
import IndexedLambda.Proofs.Inference.Session
import IndexedLambda.Proofs.Inference.Sound
import IndexedLambda.Proofs.Term.WellFormed
/-!
# The terms of conclusions

The rules scope names with a stack: a parameter is in Γ until its abstraction is discharged. The
term of a conclusion is built from the inside out, and there a parameter is a constant until then.
`Expr.named_of_infer` says that the two agree. The term that is concluded for an expression has
every name resolved, with the name of a local definition in scope in the body of the definition and
in the expression that is defined as well.

There is one lemma about the term of each rule. An abstraction uses up a fresh variable, so that the
counter of the name table bounds how deep abstractions lie inside one another, and depths cannot
overflow.
-/

namespace IndexedLambda

/-! ## Symbol tables -/

namespace SymbolTable

/-- The table comes out of the empty one. -/
inductive Built : SymbolTable → Prop
  | empty : Built .empty
  | add {table : SymbolTable} (x : String) (y : Ty) : Built table → Built (table.add x y)
  | remove {table : SymbolTable} (x : String) : Built table → Built (table.remove x)
  | removeLater {table : SymbolTable} (x : String) : Built table → Built (table.removeLater x)
  | flush {table : SymbolTable} : Built table → Built table.flush

/-- Every judgment is about the constant that has the name. -/
def Faithful (table : SymbolTable) : Prop := ∀ x, ∀ j ∈ table.bindings x, j.term = .const x

variable {table table' : SymbolTable}

theorem Faithful.of_bindings (h : table.Faithful)
    (heq : ∀ x, table'.bindings x = table.bindings x) : table'.Faithful := by
  intro x j hj
  rw [heq] at hj
  exact h x j hj

theorem mem_bindings_add {x z : String} {y : Ty} {j : Judgment}
    (h : j ∈ (table.add x y).bindings z) :
    x = z ∧ j = ⟨.const x, y⟩ ∨ j ∈ table.bindings z := by
  rw [bindings_add] at h
  by_cases hxz : x = z
  · subst hxz
    rw [if_pos rfl] at h
    exact (List.mem_cons.mp h).imp_left fun hj => ⟨rfl, hj⟩
  · rw [if_neg hxz] at h
    exact .inr h

theorem Faithful.add (h : table.Faithful) (x : String) (y : Ty) : (table.add x y).Faithful := by
  intro z j hj
  rcases mem_bindings_add hj with ⟨rfl, rfl⟩ | hj
  · rfl
  · exact h z j hj

theorem Faithful.remove (h : table.Faithful) (x : String) : (table.remove x).Faithful := by
  intro z j hj
  rw [bindings_remove] at hj
  split at hj
  · rename_i hxz
    exact hxz ▸ h x j (List.mem_of_mem_tail hj)
  · exact h z j hj

theorem Faithful.foldl_remove (h : table.Faithful) (xs : List String) :
    (xs.foldl SymbolTable.remove table).Faithful := by
  induction xs generalizing table with
  | nil => exact h
  | cons x xs ih => exact ih (h.remove x)

theorem Built.faithful (h : table.Built) : table.Faithful := by
  induction h with
  | empty =>
      intro x j hj
      rw [bindings_empty] at hj
      cases hj
  | add x y _ ih => exact ih.add x y
  | remove x _ ih => exact ih.remove x
  | removeLater x _ ih => exact ih
  | flush _ ih => exact ih.foldl_remove _

end SymbolTable

/-! ## Fresh term variables -/

theorem NameTable.freshVar_counter (n : Nat) :
    Keeps (fun names : NameTable => n ≤ names.nextVar) freshVar := by
  intro names hn
  rw [freshVar_eq]
  split
  · exact Nat.le_succ_of_le hn
  · exact hn

/-- The counter of the name table never goes back. -/
theorem Body.indexedByFresh_counter (b : Body) (n : Nat) :
    Keeps (fun names : NameTable => n ≤ names.nextVar) b.indexedByFresh := by
  cases b with
  | mono m => exact .pure m
  | dependent d =>
      refine .bind (.mapM (fun _ => ?_) _) fun _ => .pure _
      exact .bind (NameTable.freshVar_counter n) fun _ => .pure _

namespace Inference

variable {s s' : Inference} {α : Type}

/-- The symbol table is the same, and the counter of the name table has not gone back. -/
structure KeepsNames (s s' : Inference) : Prop where
  symbols : s'.symbols = s.symbols
  counter : s.terms.nextVar ≤ s'.terms.nextVar

theorem KeepsNames.refl (s : Inference) : KeepsNames s s := ⟨rfl, Nat.le_refl _⟩

theorem keepsNames_onTypes (x : ContextM α) : Keeps (KeepsNames s) (onTypes x) := by
  intro s₁ hs
  unfold onTypes
  cases x s₁.types with
  | ok a types => exact ⟨hs.symbols, hs.counter⟩
  | error f types => exact ⟨hs.symbols, hs.counter⟩

theorem keepsNames_onTerms {x : EStateM Fault NameTable α}
    (hx : ∀ n, Keeps (fun names : NameTable => n ≤ names.nextVar) x) :
    Keeps (KeepsNames s) (onTerms x) := by
  intro s₁ hs
  have hcounter := hx _ s₁.terms hs.counter
  unfold onTerms
  cases hrun : x s₁.terms with
  | ok a terms => exact ⟨hs.symbols, by rwa [hrun] at hcounter⟩
  | error f terms => exact ⟨hs.symbols, by rwa [hrun] at hcounter⟩

theorem keepsNames_instantiate (y : Ty) : Keeps (KeepsNames s) (instantiate y) :=
  .bind (.mapM (fun _ => keepsNames_onTypes _) _) fun _ =>
    .bind (keepsNames_onTerms (Body.indexedByFresh_counter _)) fun _ => .pure _

theorem keepsNames_record (step : Unit → Except Fault InferStep) : Keeps (KeepsNames s) (record step) :=
  keeps_record (fun _ _ hs => ⟨hs.symbols, hs.counter⟩) step

theorem freshTerm_spec {v : Variable} (h : onTerms NameTable.freshVar s = .ok v s') :
    (∃ binder, v = .unassigned binder) ∧ s'.symbols = s.symbols ∧
      s'.terms.nextVar = s.terms.nextVar + 1 ∧ s.terms.nextVar + 1 < counterRange := by
  unfold onTerms at h
  rw [NameTable.freshVar_eq] at h
  by_cases hroom : s.terms.nextVar + 1 < counterRange
  · rw [if_pos hroom] at h
    cases h
    exact ⟨⟨_, rfl⟩, rfl, rfl, hroom⟩
  · rw [if_neg hroom] at h
    cases h

/-! ## The term of each rule -/

theorem var_term {x : String} {j : Judgment} (h : var x s = .ok (.concluded j) s') :
    (∃ entry, s.symbols.get? x = some entry ∧ j.term = entry.term) ∧ KeepsNames s s' := by
  obtain ⟨c, s₀, hget, h⟩ := Stateful.bind_eq_ok.mp h
  cases hget
  cases hentry : s.symbols.get? x with
  | none =>
      rw [hentry] at h
      obtain ⟨u, s₁, -, h⟩ := Stateful.bind_eq_ok.mp h
      cases h
  | some entry =>
      rw [hentry] at h
      obtain ⟨m, s₁, hm, h⟩ := Stateful.bind_eq_ok.mp h
      obtain ⟨u, s₂, hrecord, h⟩ := Stateful.bind_eq_ok.mp h
      cases h
      have h₁ : KeepsNames s s₁ := (keepsNames_instantiate _).of_ok hm (KeepsNames.refl _)
      exact ⟨⟨entry, rfl, rfl⟩, (keepsNames_record _).of_ok hrecord h₁⟩

theorem app_term {ev : Evaluator} {j₀ j₁ j : Judgment}
    (h : app ev j₀ j₁ s = .ok (.concluded j) s') :
    j.term = .app j₀.term j₁.term ∧ KeepsNames s s' := by
  obtain ⟨t₀, s₁, ht₀, h⟩ := Stateful.bind_eq_ok.mp h
  have h₁ : KeepsNames s s₁ := (keepsNames_instantiate _).of_ok ht₀ (KeepsNames.refl _)
  obtain ⟨t₁, s₂, ht₁, h⟩ := Stateful.bind_eq_ok.mp h
  have h₂ := (keepsNames_instantiate _).of_ok ht₁ h₁
  obtain ⟨t₂, s₃, ht₂, h⟩ := Stateful.bind_eq_ok.mp h
  have h₃ := (keepsNames_onTypes _).of_ok ht₂ h₂
  obtain ⟨status, s₄, hunify, h⟩ := Stateful.bind_eq_ok.mp h
  have h₄ := (keepsNames_onTypes _).of_ok hunify h₃
  split at h
  · obtain ⟨c, s₅, hget, h⟩ := Stateful.bind_eq_ok.mp h
    cases hget
    obtain ⟨u, s₆, hrecord, h⟩ := Stateful.bind_eq_ok.mp h
    cases h
    exact ⟨rfl, (keepsNames_record _).of_ok hrecord h₄⟩
  · obtain ⟨u, s₅, -, h⟩ := Stateful.bind_eq_ok.mp h
    cases h

theorem abs_names {x : String} {premise : OpenAbs} (h : abs x s = .ok premise s') :
    premise.param = x ∧ (∃ y, s'.symbols = s.symbols.add x y) ∧
      s.terms.nextVar ≤ s'.terms.nextVar := by
  obtain ⟨m, s₁, hm, h⟩ := Stateful.bind_eq_ok.mp h
  have h₁ : KeepsNames s s₁ := (keepsNames_onTypes _).of_ok hm (KeepsNames.refl _)
  obtain ⟨u, s₂, hadd, h⟩ := Stateful.bind_eq_ok.mp h
  cases hadd
  cases h
  refine ⟨rfl, ⟨.mono m, ?_⟩, h₁.counter⟩
  show s₁.symbols.add x (.mono m) = _
  rw [h₁.symbols]

/-- The parameter becomes a variable, and a binder for it is put around the body. -/
theorem dischargeAbs_term {premise : OpenAbs} {body j : Judgment}
    (h : dischargeAbs premise body s = .ok (.concluded j) s') :
    (∃ binder u t, body.term.abstractConst premise.param (.unassigned binder) = .ok u ∧
      u.capture [binder] 0 = .ok t ∧ j.term = .abs [⟨binder, 1⟩] t) ∧
    s'.symbols = s.symbols.remove premise.param ∧
    s.terms.nextVar + 1 ≤ s'.terms.nextVar ∧ s.terms.nextVar + 1 < counterRange := by
  obtain ⟨b, s₁, hremove, h⟩ := Stateful.bind_eq_ok.mp h
  cases hremove
  obtain ⟨range, s₂, hrange, h⟩ := Stateful.bind_eq_ok.mp h
  have h₂ := (keepsNames_instantiate _).of_ok hrange (KeepsNames.refl _)
  obtain ⟨v, s₃, hv, h⟩ := Stateful.bind_eq_ok.mp h
  obtain ⟨⟨binder, rfl⟩, hsymbols, hcounter, hroom⟩ := freshTerm_spec hv
  obtain ⟨e, s₄, he, h⟩ := Stateful.bind_eq_ok.mp h
  obtain ⟨hu, rfl⟩ := Stateful.ofExcept_eq_ok.mp he
  obtain ⟨term, s₅, hterm, h⟩ := Stateful.bind_eq_ok.mp h
  obtain ⟨hbind, rfl⟩ := Stateful.ofExcept_eq_ok.mp hterm
  obtain ⟨-, t, ht, rfl⟩ := Term.bind_eq_ok_iff.mp hbind
  obtain ⟨u, s₆, hrecord, h⟩ := Stateful.bind_eq_ok.mp h
  have h₆ := (keepsNames_record _).of_ok hrecord (KeepsNames.refl _)
  cases h
  have hcounter₂ : s.terms.nextVar ≤ s₂.terms.nextVar := h₂.counter
  have hcounter₆ := h₆.counter
  refine ⟨⟨binder, e, t, hu, ht, rfl⟩, ?_, by omega, by omega⟩
  rw [h₆.symbols, hsymbols, h₂.symbols]

theorem letIn_names {x : String} {bound : Judgment} {premise : OpenLet}
    (h : letIn x bound s = .ok premise s') :
    premise = ⟨x, bound.term⟩ ∧ (∃ y, s'.symbols = s.symbols.add x y) ∧
      s.terms.nextVar ≤ s'.terms.nextVar := by
  obtain ⟨m, s₁, hm, h⟩ := Stateful.bind_eq_ok.mp h
  have h₁ : KeepsNames s s₁ := (keepsNames_instantiate _).of_ok hm (KeepsNames.refl _)
  obtain ⟨c, s₂, hget, h⟩ := Stateful.bind_eq_ok.mp h
  cases hget
  obtain ⟨u, s₃, hrecord, h⟩ := Stateful.bind_eq_ok.mp h
  have h₃ := (keepsNames_record _).of_ok hrecord h₁
  obtain ⟨u, s₄, hadd, h⟩ := Stateful.bind_eq_ok.mp h
  cases hadd
  cases h
  refine ⟨rfl, ⟨(s₁.generalize m).toType, ?_⟩, h₃.counter⟩
  show s₃.symbols.add x _ = _
  rw [h₃.symbols]

theorem dischargeLet_term {premise : OpenLet} {body j : Judgment}
    (h : dischargeLet premise body s = .ok (.concluded j) s') :
    j.term = .define .letIn premise.name premise.assignment body.term ∧
      s'.symbols = s.symbols.remove premise.name ∧ s.terms.nextVar ≤ s'.terms.nextVar := by
  obtain ⟨b, s₁, hremove, h⟩ := Stateful.bind_eq_ok.mp h
  cases hremove
  obtain ⟨u, s₂, hrecord, h⟩ := Stateful.bind_eq_ok.mp h
  cases h
  have h₂ := (keepsNames_record _).of_ok hrecord (KeepsNames.refl _)
  exact ⟨rfl, h₂.symbols, h₂.counter⟩

end Inference

/-! ## The term of a run -/

namespace Expr

/-- What running the rules for an expression has to achieve between two contexts, as far as names
are concerned. Γ is left as it was, and every abstraction has taken a fresh variable. -/
structure Named (s s' : Inference) (e : Expr) (t : Term) : Prop where
  elaborates : Elaborates .everywhere [] e t
  bindings : ∀ x, s'.symbols.bindings x = s.symbols.bindings x
  counter : s.terms.nextVar + e.nesting ≤ s'.terms.nextVar

namespace Named

variable {ev : Evaluator} {s s₁ s₂ s₃ s' : Inference} {j j₀ j₁ : Judgment} {x : String}
  {bound body : Expr}

theorem name (hs : s.symbols.Faithful) (h : Inference.var x s = .ok (.concluded j) s') :
    Named s s' (.name x) j.term := by
  obtain ⟨⟨entry, hentry, hj⟩, hnames⟩ := Inference.var_term h
  have hconst : entry.term = .const x := hs x entry (List.mem_of_mem_head? hentry)
  rw [hj, hconst]
  exact ⟨.name, fun z => by rw [hnames.symbols], hnames.counter⟩

theorem app {operator operand : Expr} (h₀ : Named s s₁ operator j₀.term)
    (h₁ : Named s₁ s₂ operand j₁.term)
    (h : Inference.app ev j₀ j₁ s₂ = .ok (.concluded j) s') :
    Named s s' (.app operator operand) j.term := by
  obtain ⟨hj, hnames⟩ := Inference.app_term h
  have hcounter₀ := h₀.counter
  have hcounter₁ := h₁.counter
  have hcounter := hnames.counter
  rw [hj]
  refine ⟨.app h₀.elaborates h₁.elaborates, fun z => ?_, ?_⟩
  · rw [hnames.symbols, h₁.bindings, h₀.bindings]
  · simp only [nesting]
    omega

/-- The constants that stand for the parameter become variables when the abstraction is discharged,
and they are the ones that the parameter was in scope for. -/
theorem lam {premise : OpenAbs} (habs : Inference.abs x s = .ok premise s₁)
    (h : Named s₁ s₂ body j₀.term)
    (hdischarge : Inference.dischargeAbs premise j₀ s₂ = .ok (.concluded j) s') :
    Named s s' (.lam x body) j.term := by
  obtain ⟨rfl, ⟨y, hsymbols₁⟩, hcounter₁⟩ := Inference.abs_names habs
  obtain ⟨⟨binder, u, t, hu, ht, hj⟩, hsymbols, hcounter, hroom⟩ :=
    Inference.dischargeAbs_term hdischarge
  have hcounter₂ := h.counter
  -- the counter has gone up with every abstraction of the body
  have hdepth : Scope.depth [] + body.nesting + 1 < wordRange := by
    simp only [Scope.depth]
    unfold counterRange at hroom
    unfold wordRange
    omega
  obtain ⟨u', t', hu', ht', helaborates⟩ := h.elaborates.enclose (by simp) binder hdepth
  obtain rfl : u = u' := Except.ok.inj (hu.symm.trans hu')
  obtain rfl : t = t' := Except.ok.inj (ht.symm.trans ht')
  rw [hj]
  refine ⟨.lam helaborates, fun z => ?_, ?_⟩
  · rw [hsymbols]
    exact SymbolTable.bindings_remove_of_add (fun z => by rw [h.bindings, hsymbols₁]) z
  · simp only [nesting]
    omega

theorem letIn {premise : OpenLet} (h₀ : Named s s₁ bound j₀.term)
    (hlet : Inference.letIn x j₀ s₁ = .ok premise s₂) (h₁ : Named s₂ s₃ body j₁.term)
    (hdischarge : Inference.dischargeLet premise j₁ s₃ = .ok (.concluded j) s') :
    Named s s' (.letIn x bound body) j.term := by
  obtain ⟨rfl, ⟨y, hsymbols₂⟩, hcounter₂⟩ := Inference.letIn_names hlet
  obtain ⟨hj, hsymbols, hcounter⟩ := Inference.dischargeLet_term hdischarge
  have hcounter₀ := h₀.counter
  have hcounter₁ := h₁.counter
  rw [hj]
  refine ⟨.letIn (h₀.elaborates.append_definition _) (h₁.elaborates.append_definition _),
    fun z => ?_, ?_⟩
  · rw [hsymbols, ← h₀.bindings]
    exact SymbolTable.bindings_remove_of_add (fun z => by rw [h₁.bindings, hsymbols₂]) z
  · simp only [nesting]
    omega

end Named

/-- Every run of the rules gives the expression with its names resolved. -/
theorem named_of_infer (ev : Evaluator) (e : Expr) {s s' : Inference} {j : Judgment}
    (hs : s.symbols.Faithful) (h : e.infer ev s = .ok (.concluded j) s') :
    Named s s' e j.term := by
  induction e generalizing s s' j with
  | name x => exact Named.name hs h
  | app operator operand ih₀ ih₁ =>
      obtain ⟨k₀, s₁, hrun₀, h⟩ := Stateful.bind_eq_ok.mp h
      cases k₀ with
      | failed status => cases h
      | concluded j₀ =>
          have h₀ := ih₀ hs hrun₀
          obtain ⟨k₁, s₂, hrun₁, h⟩ := Stateful.bind_eq_ok.mp h
          cases k₁ with
          | failed status => cases h
          | concluded j₁ => exact h₀.app (ih₁ (hs.of_bindings h₀.bindings) hrun₁) h
  | lam x body ih =>
      obtain ⟨premise, s₁, habs, h⟩ := Stateful.bind_eq_ok.mp h
      obtain ⟨k₀, s₂, hrun₀, h⟩ := Stateful.bind_eq_ok.mp h
      cases k₀ with
      | failed status => cases h
      | concluded j₀ =>
          obtain ⟨-, ⟨y, hsymbols⟩, -⟩ := Inference.abs_names habs
          have hs₁ : s₁.symbols.Faithful := hsymbols ▸ hs.add x y
          exact Named.lam habs (ih hs₁ hrun₀) h
  | letIn x bound body ih₀ ih₁ =>
      obtain ⟨k₀, s₁, hrun₀, h⟩ := Stateful.bind_eq_ok.mp h
      cases k₀ with
      | failed status => cases h
      | concluded j₀ =>
          have h₀ := ih₀ hs hrun₀
          obtain ⟨premise, s₂, hlet, h⟩ := Stateful.bind_eq_ok.mp h
          obtain ⟨k₁, s₃, hrun₁, h⟩ := Stateful.bind_eq_ok.mp h
          cases k₁ with
          | failed status => cases h
          | concluded j₁ =>
              obtain ⟨-, ⟨y, hsymbols⟩, -⟩ := Inference.letIn_names hlet
              have hs₂ : s₂.symbols.Faithful :=
                hsymbols ▸ (hs.of_bindings h₀.bindings).add x y
              exact h₀.letIn hlet (ih₁ hs₂ hrun₁) h

/-- What a run was seen to conclude. -/
theorem concluded_of_run' {ev : Evaluator} {e : Expr} {s : Inference} {t : Term}
    (h : EStateM.run' (do return (← e.infer ev).judgment?.map (·.term)) s = some (some t)) :
    ∃ j s', e.infer ev s = .ok (.concluded j) s' ∧ j.term = t := by
  obtain ⟨k, s₁, hrun, hrest⟩ := Stateful.bind_eq_ok.mp (eq_ok_of_run' h)
  have hk := (EStateM.Result.ok.inj hrest).1
  cases k with
  | failed status => cases hk
  | concluded j => exact ⟨j, s₁, hrun, Option.some.inj hk⟩

/-- **The rules elaborate.** The term of a conclusion is the expression with its names resolved, where
the name of a local definition counts as defined in the expression that is defined as well. If its scope
is to be the body alone, then the term is right exactly when no definition hides a parameter that it
uses. -/
theorem infer_elaborates {ev : Evaluator} {e : Expr} {s s' : Inference} {j : Judgment}
    (hs : s.symbols.Built) (h : e.infer ev s = .ok (.concluded j) s') :
    Elaborates .everywhere [] e j.term ∧
      (Elaborates .body [] e j.term ↔ e.hidesParameter [] = false) := by
  have helaborates := (named_of_infer ev e hs.faithful h).elaborates
  exact ⟨helaborates, helaborates.body_iff⟩

/-- In `λx. let y = x in λx. x y` the names `x` belong to different abstractions, and `y` is `x` of
the outer one. -/
theorem infer_elaborates_of_shadowing :
    let e : Expr := .lam "x" (.letIn "y" (.name "x") (.lam "x" (.app (.name "x") (.name "y"))))
    let t : Term := .abs [⟨"$e1", 1⟩] (.define .letIn "y" (.var ⟨"$e1", 1⟩)
      (.abs [⟨"$e0", 1⟩] (.app (.var ⟨"$e0", 1⟩) (.const "y"))))
    ∃ j s, e.infer ⟨fun _ _ => .fail none, 20⟩ (.startingAt 0 0) = .ok (.concluded j) s ∧
      j.term = t ∧ Elaborates .body [] e t := by
  intro e t
  obtain ⟨j, s, hrun, hj⟩ : ∃ j s, e.infer ⟨fun _ _ => .fail none, 20⟩ (.startingAt 0 0) =
      .ok (.concluded j) s ∧ j.term = t := concluded_of_run' (by decide +kernel)
  have helaborates := infer_elaborates .empty hrun
  rw [hj] at helaborates
  exact ⟨j, s, hrun, hj, helaborates.2.mpr (by decide)⟩

/-- In `λx. let x = x in x` the defined expression is the parameter, and its constant stays when the
abstraction is discharged. -/
theorem parameter_left_in_definition :
    let e : Expr := .lam "x" (.letIn "x" (.name "x") (.name "x"))
    ∃ j s, e.infer ⟨fun _ _ => .fail none, 20⟩ (.startingAt 0 0) = .ok (.concluded j) s ∧
      j.term = .abs [⟨"$e0", 1⟩] (.define .letIn "x" (.const "x") (.const "x")) ∧
      ¬Elaborates .body [] e j.term := by
  intro e
  obtain ⟨j, s, hrun, hj⟩ : ∃ j s, e.infer ⟨fun _ _ => .fail none, 20⟩ (.startingAt 0 0) =
      .ok (.concluded j) s ∧
        j.term = .abs [⟨"$e0", 1⟩] (.define .letIn "x" (.const "x") (.const "x")) :=
    concluded_of_run' (by decide +kernel)
  have hnamed := named_of_infer _ e SymbolTable.Built.empty.faithful hrun
  refine ⟨j, s, hrun, hj, fun helaborates => ?_⟩
  have hhides : e.hidesParameter [] = false := hnamed.elaborates.body_iff.mp helaborates
  exact absurd hhides (by decide)

end Expr

end IndexedLambda
