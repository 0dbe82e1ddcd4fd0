import IndexedLambda.Proofs.Inference.Locality
/-!
# Scopes as brackets

Abs and Let open a scope, and their discharges close it again. Between them other rules run, fail or
end with a fault, and more scopes are opened and closed, the last one first. A point of such a
sequence is a context together with the scopes that are open there.

At every point Γ is the table of the beginning with the open scopes added, the innermost one last
(`Point.after_symbols`). A discharge takes this addition back exactly, because a table has no entry
without a judgment. It does so before anything in it can fail, so the body it is handed does not
matter.
-/

namespace IndexedLambda

/-! ## Tables without empty entries -/

namespace SymbolTable

variable {table : SymbolTable}

/-- Every name that has an entry has a judgment. -/
def Proper (table : SymbolTable) : Prop := ∀ x : String, table.symbols[x]? ≠ some []

theorem proper_empty : empty.Proper := by
  intro x
  simp [empty]

theorem Proper.add (h : table.Proper) (x : String) (y : Ty) : (table.add x y).Proper := by
  intro z
  show (table.symbols.insert x _)[z]? ≠ some []
  rw [Std.ExtTreeMap.getElem?_insert]
  split
  · simp
  · exact h z

theorem Proper.remove (h : table.Proper) (x : String) : (table.remove x).Proper := by
  intro z
  unfold SymbolTable.remove
  split
  · show (table.symbols.insert x _)[z]? ≠ some []
    rw [Std.ExtTreeMap.getElem?_insert]
    split
    · simp
    · exact h z
  · show (table.symbols.erase x)[z]? ≠ some []
    rw [Std.ExtTreeMap.getElem?_erase]
    split
    · simp
    · exact h z

theorem Proper.foldl_remove (h : table.Proper) (xs : List String) :
    (xs.foldl SymbolTable.remove table).Proper := by
  induction xs generalizing table with
  | nil => exact h
  | cons x xs ih => exact ih (h.remove x)

theorem Built.proper (h : table.Built) : table.Proper := by
  induction h with
  | empty => exact proper_empty
  | add x y _ ih => exact ih.add x y
  | remove x _ ih => exact ih.remove x
  | removeLater x _ ih => exact ih
  | flush _ ih => exact ih.foldl_remove _

theorem Proper.getElem? (h : table.Proper) (x : String) :
    table.symbols[x]? = if table.bindings x = [] then none else some (table.bindings x) := by
  unfold bindings
  cases hx : table.symbols[x]? with
  | none => rfl
  | some js =>
      have hjs : js ≠ [] := fun e => h x (e ▸ hx)
      exact (if_neg hjs).symm

/-- Entries and queue are all there is to a table. -/
theorem ext_entries {table' : SymbolTable}
    (hentries : ∀ x : String, table.symbols[x]? = table'.symbols[x]?)
    (hremovals : table.removals = table'.removals) : table = table' := by
  have hsymbols : table.symbols = table'.symbols := Std.ExtTreeMap.ext_getElem? fun x => hentries x
  cases table
  cases table'
  cases hsymbols
  cases hremovals
  rfl

/-- Without empty entries, the judgments are enough. -/
theorem Proper.ext (h : table.Proper) {table' : SymbolTable} (h' : table'.Proper)
    (hbindings : ∀ x, table.bindings x = table'.bindings x)
    (hremovals : table.removals = table'.removals) : table = table' := by
  refine ext_entries (fun x => ?_) hremovals
  rw [h.getElem?, h'.getElem?, hbindings]

theorem removals_remove (table : SymbolTable) (x : String) :
    (table.remove x).removals = table.removals := by
  unfold SymbolTable.remove
  split <;> rfl

/-- A removal takes an addition back. -/
theorem Proper.remove_add (h : table.Proper) (x : String) (y : Ty) :
    (table.add x y).remove x = table := by
  refine ((h.add x y).remove x).ext h (fun z => ?_) (removals_remove _ x)
  rw [bindings_remove, bindings_add, bindings_add, if_pos rfl]
  by_cases hxz : x = z
  · rw [if_pos hxz, List.tail_cons, hxz]
  · rw [if_neg hxz, if_neg hxz]

end SymbolTable

/-! ## What the rules do to Γ -/

namespace Inference

variable {s : Inference} {α β : Type}

theorem keepsNames_report (r : Report) : Keeps (KeepsNames s) (report r) := by
  intro s₁ h
  exact ⟨h.symbols, h.counter⟩

theorem keepsNames_var (x : String) : Keeps (KeepsNames s) (var x) := by
  refine .bind .get fun t => ?_
  cases t.symbols.get? x with
  | none => exact .bind (keepsNames_report _) fun _ => .pure _
  | some j =>
      exact .bind (keepsNames_instantiate _) fun _ => .bind (keepsNames_record _) fun _ => .pure _

theorem keepsNames_app (ev : Evaluator) (j₀ j₁ : Judgment) :
    Keeps (KeepsNames s) (app ev j₀ j₁) := by
  refine .bind (keepsNames_instantiate _) fun t₀ => .bind (keepsNames_instantiate _) fun t₁ =>
    .bind (keepsNames_onTypes _) fun t₂ => .bind (keepsNames_onTypes _) fun status => ?_
  split
  · exact .bind .get fun _ => .bind (keepsNames_record _) fun _ => .pure _
  · exact .bind (keepsNames_report _) fun _ => .pure _

theorem symbols_endOf {x : InferM α} (h : ∀ s, Keeps (KeepsNames s) x) (s : Inference) :
    (endOf (x s)).symbols = s.symbols := (h s s (.refl s)).symbols

/-- After a removal nothing else happens to Γ. -/
theorem symbols_of_removal {name : String} {f : Bool → InferM β}
    (h : ∀ s found, Keeps (KeepsNames s) (f found)) (s : Inference) :
    (endOf ((remove name >>= f) s)).symbols = s.symbols.remove name :=
  symbols_endOf (fun t => h t _) { s with symbols := s.symbols.remove name }

theorem symbols_dischargeAbs (premise : OpenAbs) (body : Judgment) (s : Inference) :
    (endOf (dischargeAbs premise body s)).symbols = s.symbols.remove premise.param := by
  refine symbols_of_removal (fun t _ => ?_) s
  refine .bind (keepsNames_instantiate _) fun _ =>
    .bind (keepsNames_onTerms NameTable.freshVar_counter) fun v => ?_
  exact .bind (.ofExcept _) fun _ => .bind (.ofExcept _) fun _ =>
    .bind (keepsNames_record _) fun _ => .pure _

theorem symbols_dischargeLet (premise : OpenLet) (body : Judgment) (s : Inference) :
    (endOf (dischargeLet premise body s)).symbols = s.symbols.remove premise.name := by
  refine symbols_of_removal (fun t _ => ?_) s
  exact .bind (keepsNames_record _) fun _ => .pure _

/-- Abs adds its parameter with the type drawn for it, or ends with a fault before it has done so.
-/
theorem abs_cases (x : String) (s : Inference) :
    (∃ premise s', abs x s = .ok premise s' ∧ premise.param = x ∧
      s'.symbols = s.symbols.add x (.mono premise.domain)) ∨
    ∃ f s', abs x s = .error f s' ∧ s'.symbols = s.symbols := by
  have hkept := symbols_endOf (fun _ => keepsNames_onTypes TypeContext.fresh) s
  cases hrun : onTypes TypeContext.fresh s with
  | ok domain s₁ =>
      rw [hrun] at hkept
      refine .inl ⟨⟨x, domain⟩, _, Stateful.bind_of_ok hrun, rfl, ?_⟩
      exact congrArg (·.add x (.mono domain)) hkept
  | error f s₁ =>
      rw [hrun] at hkept
      exact .inr ⟨f, s₁, Stateful.bind_of_error hrun, hkept⟩

/-- The type that a local definition gets: that of what is defined, opened and generalised. -/
def letType (s : Inference) (bound : Judgment) : Ty :=
  ((s.afterOpening bound.type).generalize (s.opened bound.type)).toType

theorem letIn_adds {x : String} {bound : Judgment} {premise : OpenLet} {s' : Inference}
    (h : letIn x bound s = .ok premise s') :
    premise.name = x ∧ s'.symbols = s.symbols.add x (s.letType bound) := by
  obtain ⟨m, s₁, hm, h⟩ := Stateful.bind_eq_ok.mp h
  obtain ⟨rfl, rfl⟩ := instantiate_opens hm
  obtain ⟨t, s₂, hget, h⟩ := Stateful.bind_eq_ok.mp h
  cases hget
  obtain ⟨_, s₃, hrecord, h⟩ := Stateful.bind_eq_ok.mp h
  obtain ⟨_, s₄, hadd, h⟩ := Stateful.bind_eq_ok.mp h
  cases hadd
  cases h
  refine ⟨rfl, ?_⟩
  show s₃.symbols.add x _ = s.symbols.add x _
  rw [(record_eq_ok hrecord).1]
  rfl

/-- Let adds its name with that type, or ends with a fault before it has done so. -/
theorem letIn_cases (x : String) (bound : Judgment) (s : Inference) :
    (∃ premise s', letIn x bound s = .ok premise s' ∧ premise.name = x ∧
      s'.symbols = s.symbols.add x (s.letType bound)) ∨
    ∃ f s', letIn x bound s = .error f s' ∧ s'.symbols = s.symbols := by
  cases hlet : letIn x bound s with
  | ok premise s' => exact .inl ⟨premise, s', rfl, letIn_adds hlet⟩
  | error f s' =>
      refine .inr ⟨f, s', rfl, ?_⟩
      have hopened := symbols_endOf (fun _ => keepsNames_instantiate bound.type) s
      rcases Stateful.bind_eq_error.mp hlet with hopen | ⟨m, s₁, hopen, hlet⟩
      · rwa [hopen] at hopened
      · rw [hopen] at hopened
        rw [Stateful.get_then] at hlet
        -- the name is added last
        rcases Stateful.bind_eq_error.mp hlet with hrecord | ⟨_, s₂, -, hadd⟩
        · exact ((keepsNames_record _).of_error hrecord (.refl s₁)).symbols.trans hopened
        · cases hadd

end Inference

/-! ## Points -/

/-- A scope that has not been discharged. -/
inductive OpenScope where
  | abs (premise : OpenAbs)
  /-- With the type that the name has got. -/
  | letIn (premise : OpenLet) (type : Ty)

namespace OpenScope

def name : OpenScope → String
  | abs premise => premise.param
  | letIn premise _ => premise.name

/-- The type of the name inside the scope. -/
def type : OpenScope → Ty
  | abs premise => .mono premise.domain
  | letIn _ y => y

/-- Closes the scope, however this ends. -/
def discharge (body : Judgment) (s : Inference) : OpenScope → Inference
  | abs premise => endOf (Inference.dischargeAbs premise body s)
  | letIn premise _ => endOf (Inference.dischargeLet premise body s)

theorem symbols_discharge (scope : OpenScope) (body : Judgment) (s : Inference) :
    (scope.discharge body s).symbols = s.symbols.remove scope.name := by
  cases scope with
  | abs premise => exact Inference.symbols_dischargeAbs premise body s
  | letIn premise y => exact Inference.symbols_dischargeLet premise body s

end OpenScope

/-- The table with scopes added, the innermost one first in the list. -/
def SymbolTable.withScopes (table : SymbolTable) (scopes : List OpenScope) : SymbolTable :=
  scopes.foldr (fun scope table => table.add scope.name scope.type) table

theorem SymbolTable.Proper.withScopes {table : SymbolTable} (h : table.Proper)
    (scopes : List OpenScope) : (table.withScopes scopes).Proper := by
  induction scopes with
  | nil => exact h
  | cons scope scopes ih => exact ih.add scope.name scope.type

/-- What can happen between the brackets, and the brackets. -/
inductive Event where
  | var (x : String)
  | app (ev : Evaluator) (operator operand : Judgment)
  | instantiate (y : Ty)
  | generalize (m : Monotype)
  /-- Unification, or other work on the type context alone. -/
  | onTypes (op : Operation)
  | abs (x : String)
  | letIn (x : String) (bound : Judgment)
  /-- Closes the innermost scope with a body. -/
  | discharge (body : Judgment)

/-- A context and the scopes that are open there, the innermost one first. -/
structure Point where
  state : Inference
  opened : List OpenScope

namespace Point

/-- A rule that was to open a scope has ended. With a fault it has opened none. -/
def opening {α : Type} (scope : α → OpenScope) (opened : List OpenScope) :
    EStateM.Result Fault Inference α → Point
  | .ok premise s => ⟨s, scope premise :: opened⟩
  | .error _ s => ⟨s, opened⟩

/-- The point after an event, however it ends. There must be a scope to be closed. -/
def after (p : Point) : Event → Option Point
  | .var x => some ⟨endOf (Inference.var x p.state), p.opened⟩
  | .app ev operator operand => some ⟨endOf (Inference.app ev operator operand p.state), p.opened⟩
  | .instantiate y => some ⟨endOf (Inference.instantiate y p.state), p.opened⟩
  | .generalize _ => some p
  | .onTypes op => some ⟨{ p.state with types := op.run p.state.types }, p.opened⟩
  | .abs x => some (opening .abs p.opened (Inference.abs x p.state))
  | .letIn x bound => some (opening (.letIn · (p.state.letType bound)) p.opened
      (Inference.letIn x bound p.state))
  | .discharge body =>
    match p.opened with
    | [] => none
    | scope :: rest => some ⟨scope.discharge body p.state, rest⟩

/-- The point after a sequence of events, if it closes no scope that is not open. -/
def run (p : Point) (events : List Event) : Option Point := events.foldlM after p

variable {p q : Point} {table : SymbolTable}

/-- One event keeps Γ at the table with the open scopes. -/
theorem after_symbols (htable : table.Proper) {event : Event} (h : p.after event = some q)
    (hp : p.state.symbols = table.withScopes p.opened) :
    q.state.symbols = table.withScopes q.opened := by
  cases event with
  | var x =>
      cases h
      exact (Inference.symbols_endOf (fun _ => Inference.keepsNames_var x) _).trans hp
  | app ev operator operand =>
      cases h
      exact (Inference.symbols_endOf (fun _ => Inference.keepsNames_app ev _ _) _).trans hp
  | instantiate y =>
      cases h
      exact (Inference.symbols_endOf (fun _ => Inference.keepsNames_instantiate y) _).trans hp
  | generalize m => cases h; exact hp
  | onTypes op => cases h; exact hp
  | abs x =>
      cases h
      rcases Inference.abs_cases x p.state with
        ⟨premise, s', hrun, hparam, hs'⟩ | ⟨f, s', hrun, hs'⟩
      · rw [hrun]
        show s'.symbols = (table.withScopes p.opened).add premise.param (.mono premise.domain)
        rw [hs', hp, hparam]
      · rw [hrun]
        exact hs'.trans hp
  | letIn x bound =>
      cases h
      rcases Inference.letIn_cases x bound p.state with
        ⟨premise, s', hrun, hname, hs'⟩ | ⟨f, s', hrun, hs'⟩
      · rw [hrun]
        show s'.symbols = (table.withScopes p.opened).add premise.name (p.state.letType bound)
        rw [hs', hp, hname]
      · rw [hrun]
        exact hs'.trans hp
  | discharge body =>
      obtain ⟨s, opened⟩ := p
      cases opened with
      | nil => cases h
      | cons scope rest =>
          cases h
          show (scope.discharge body s).symbols = table.withScopes rest
          -- the scope that is closed was the last to be added
          have hs : s.symbols = (table.withScopes rest).add scope.name scope.type := hp
          rw [scope.symbols_discharge, hs, (htable.withScopes rest).remove_add]

/-- What one event keeps, a sequence of events keeps. -/
theorem run_symbols (htable : table.Proper) {events : List Event} (h : p.run events = some q)
    (hp : p.state.symbols = table.withScopes p.opened) :
    q.state.symbols = table.withScopes q.opened := by
  induction events generalizing p with
  | nil =>
      cases h
      exact hp
  | cons event events ih =>
      rw [run, List.foldlM_cons] at h
      obtain ⟨p', hp', h⟩ := Option.bind_eq_some_iff.mp h
      exact ih h (after_symbols htable hp' hp)

/-- A sequence that can be run can be run up to any place in it. -/
theorem run_prefix {before rest : List Event} (h : p.run (before ++ rest) = some q) :
    ∃ p', p.run before = some p' := by
  rw [run, List.foldlM_append] at h
  obtain ⟨p', hp', -⟩ := Option.bind_eq_some_iff.mp h
  exact ⟨p', hp'⟩

/-- The innermost open scope of a name. -/
def innermost? (p : Point) (x : String) : Option OpenScope :=
  p.opened.find? fun scope => scope.name = x

end Point

namespace SymbolTable

variable {table : SymbolTable}

/-- The open scopes of a name are in front of what it had before. -/
theorem bindings_withScopes (scopes : List OpenScope) (x : String) :
    (table.withScopes scopes).bindings x =
      (scopes.filter fun scope => scope.name = x).map (fun scope => ⟨.const x, scope.type⟩) ++
        table.bindings x := by
  induction scopes with
  | nil => rfl
  | cons scope scopes ih =>
      show ((table.withScopes scopes).add scope.name scope.type).bindings x = _
      rw [bindings_add]
      by_cases hx : scope.name = x
      · subst hx
        simp [ih]
      · simp [hx, ih]

theorem get?_withScopes (scopes : List OpenScope) (x : String) :
    (table.withScopes scopes).get? x =
      ((scopes.find? fun scope => scope.name = x).map fun scope => ⟨.const x, scope.type⟩).or
        (table.get? x) := by
  rw [get?, bindings_withScopes, List.head?_append, List.head?_map, List.head?_filter]
  rfl

end SymbolTable

/-- **Scopes are restored exactly.** After a sequence of events in which every scope that was opened has
been closed, the last one first, Γ is what it was before. At every place in it a name has the type
of its innermost open scope, over the open scopes around that one and over what it had at the
beginning. -/
theorem scopes_restored {s₀ s : Inference} {events : List Event} (h₀ : s₀.symbols.Built)
    (h : Point.run ⟨s₀, []⟩ events = some ⟨s, []⟩) :
    s.symbols = s₀.symbols ∧
    ∀ before rest, events = before ++ rest → ∃ p, Point.run ⟨s₀, []⟩ before = some p ∧ ∀ x,
      p.state.symbols.bindings x =
        (p.opened.filter fun scope => scope.name = x).map (fun scope => ⟨.const x, scope.type⟩) ++
          s₀.symbols.bindings x ∧
      (∀ scope, p.innermost? x = some scope →
        p.state.symbols.get? x = some ⟨.const x, scope.type⟩) ∧
      (p.innermost? x = none → p.state.symbols.get? x = s₀.symbols.get? x) := by
  refine ⟨Point.run_symbols h₀.proper h rfl, ?_⟩
  rintro before rest rfl
  obtain ⟨p, hp⟩ := Point.run_prefix h
  have hsymbols := Point.run_symbols h₀.proper hp rfl
  refine ⟨p, hp, fun x => ⟨?_, fun scope hscope => ?_, fun hnone => ?_⟩⟩
  · rw [hsymbols, SymbolTable.bindings_withScopes]
  · rw [hsymbols, SymbolTable.get?_withScopes, show p.opened.find? _ = some scope from hscope]
    rfl
  · rw [hsymbols, SymbolTable.get?_withScopes, show p.opened.find? _ = none from hnone]
    rfl

/-- A name that has two types already is a parameter, then a local definition in which an
application fails, and a parameter again. The body of the parameter's scope is one of another type.
-/
theorem scopes_restored_of_shadowing :
    let ev : Evaluator := ⟨fun _ _ => .fail none, 20⟩
    let nat : Monotype := .plain "Nat"
    let x : Judgment := ⟨.const "x", .mono nat⟩
    let s₁ := (Call.add "x" (.mono nat)).run (.startingAt 0 0)
    let s₀ := (Call.add "x" (.mono (.plain "Bool"))).run s₁
    let inside : List Event := [.abs "x", .letIn "x" x, .app ev x x]
    let outside : List Event := [.discharge x, .var "x", .discharge x]
    ∃ s p, Point.run ⟨s₀, []⟩ (inside ++ outside) = some ⟨s, []⟩ ∧ s.symbols = s₀.symbols ∧
      Point.run ⟨s₀, []⟩ inside = some p ∧ p.state.reports.size = 1 ∧
      (p.state.symbols.bindings "x").length = 4 ∧
      (p.state.symbols.get? "x").map (·.type.scheme.type) = some nat := by
  intro ev nat x s₁ s₀ inside outside
  have hbuilt : s₀.symbols.Built := .add _ _ (.add _ _ .empty)
  have hclosed : (Point.run ⟨s₀, []⟩ (inside ++ outside)).map (·.opened.isEmpty) = some true := by
    decide +kernel
  obtain ⟨⟨s, opened⟩, hrun, hopened⟩ := Option.map_eq_some_iff.mp hclosed
  obtain rfl : opened = [] := List.isEmpty_iff.mp hopened
  obtain ⟨hsymbols, hplaces⟩ := scopes_restored hbuilt hrun
  obtain ⟨p, hp, hx⟩ := hplaces inside outside rfl
  obtain ⟨-, hinnermost, -⟩ := hx "x"
  have hinside : (Point.run ⟨s₀, []⟩ inside).map (fun p => (p.state.reports.size,
      (p.state.symbols.bindings "x").length, (p.innermost? "x").map (·.type.scheme.type))) =
      some (1, 4, some nat) := by decide +kernel
  rw [hp] at hinside
  simp only [Option.map_some, Option.some.injEq, Prod.mk.injEq] at hinside
  obtain ⟨hreports, hlength, htype⟩ := hinside
  obtain ⟨scope, hscope, htype⟩ := Option.map_eq_some_iff.mp htype
  refine ⟨s, p, hrun, hsymbols, hp, hreports, hlength, ?_⟩
  rw [hinnermost scope hscope]
  exact congrArg some htype

end IndexedLambda
