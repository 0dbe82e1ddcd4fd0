import IndexedLambda.Proofs.Inference.Elaboration
/-!
# Rules that go through

The statements about the rules so far start from a run that has ended well. Here it is the other way
round: a rule whose premises are as it needs them ends well, and this is its conclusion. Only few
things can come between. Unification may need more fuel than it was given, it may have to write a type
that cannot be written, and a counter may be at its end. So a computation is looked at for all large
amounts of fuel at once (`Inference.Yields`), and it ends with a result, at an exhausted counter, or
with a fault that is excused. No record of the rules is kept here, so they write nothing themselves.

Depths are no further reason. An abstraction that is discharged takes a fresh variable, so that the
counter runs out before depths do.
-/

namespace IndexedLambda

namespace Inference

variable {α β : Type} {s s' : Inference}

/-- What may stop a computation: a counter at its end, or a fault that is excused. -/
def Stops (excused : Fault → Prop) (f : Fault) (s : Inference) : Prop :=
  f = .overflow ∧ s.Exhausted ∨ excused f

/-- With enough fuel the computation ends in one way: with a result as described, or because it is
stopped. -/
def Yields (excused : Fault → Prop) (x : Nat → InferM α) (Q : α → Inference → Prop) (s : Inference) :
    Prop :=
  ∃ bound, (∃ a s', (∀ n, bound ≤ n → x n s = .ok a s') ∧ Q a s') ∨
    ∃ f s', (∀ n, bound ≤ n → x n s = .error f s') ∧ Stops excused f s'

namespace Yields

variable {excused : Fault → Prop} {x : Nat → InferM α} {f : Nat → α → InferM β}
  {P : α → Inference → Prop} {Q : β → Inference → Prop}

theorem of_ok {x : InferM α} {a : α} (h : x s = .ok a s') (ha : P a s') :
    Yields excused (fun _ => x) P s := ⟨0, .inl ⟨a, s', fun _ _ => h, ha⟩⟩

theorem of_overflow {x : InferM α} (h : x s = .error .overflow s') (hs' : s'.Exhausted) :
    Yields excused (fun _ => x) P s := ⟨0, .inr ⟨.overflow, s', fun _ _ => h, .inl ⟨rfl, hs'⟩⟩⟩

theorem imp {Q : α → Inference → Prop} (hx : Yields excused x P s) (h : ∀ a s', P a s' → Q a s') :
    Yields excused x Q s := by
  obtain ⟨bound, ⟨a, s', hrun, ha⟩ | hstops⟩ := hx
  · exact ⟨bound, .inl ⟨a, s', hrun, h a s' ha⟩⟩
  · exact ⟨bound, .inr hstops⟩

/-- The second computation is asked only about results of the first one. -/
theorem bind (hx : Yields excused x P s)
    (hf : ∀ n a s', x n s = .ok a s' → P a s' → Yields excused (fun n => f n a) Q s') :
    Yields excused (fun n => x n >>= f n) Q s := by
  obtain ⟨bound, ⟨a, s₁, hrun, ha⟩ | ⟨e, s₁, hrun, hstops⟩⟩ := hx
  · obtain ⟨bound', hrest⟩ := hf bound a s₁ (hrun bound (Nat.le_refl _)) ha
    have hboth : ∀ n, max bound bound' ≤ n → (x n >>= f n) s = f n a s₁ ∧ bound' ≤ n :=
      fun n hn => ⟨Stateful.bind_of_ok (hrun n (by omega)), by omega⟩
    refine ⟨max bound bound', ?_⟩
    rcases hrest with ⟨b, s₂, hrun', hb⟩ | ⟨e, s₂, hrun', hstops⟩
    · exact .inl ⟨b, s₂, fun n hn => (hboth n hn).1.trans (hrun' n (hboth n hn).2), hb⟩
    · exact .inr ⟨e, s₂, fun n hn => (hboth n hn).1.trans (hrun' n (hboth n hn).2), hstops⟩
  · exact ⟨bound, .inr ⟨e, s₁, fun n hn => Stateful.bind_of_error (hrun n hn), hstops⟩⟩

/-- The first computation has only one result. -/
theorem after {a : α} (bound : Nat) (hx : ∀ n, bound ≤ n → x n s = .ok a s')
    (hf : Yields excused (fun n => f n a) Q s') : Yields excused (fun n => x n >>= f n) Q s := by
  have hone : Yields excused x (fun b s₁ => b = a ∧ s₁ = s') s := ⟨bound, .inl ⟨a, s', hx, rfl, rfl⟩⟩
  refine hone.bind ?_
  rintro n _ _ - ⟨rfl, rfl⟩
  exact hf

end Yields

end Inference

/-- The conclusion has a judgment with the monotype. -/
def Conclusion.Has (k : Conclusion) (m : Monotype) : Prop := ∃ term, k = .concluded ⟨term, .mono m⟩

namespace Inference

variable {s : Inference} {excused : Fault → Prop}

/-! ## Fresh variables and records -/

theorem fresh_yields (s : Inference) : Yields excused (fun _ => onTypes TypeContext.fresh)
    (fun m s' => m = .var (s.types.numbered s.types.nextVar) ∧ s' = drawTypes 1 s) s := by
  have hrun := typeSupply.run s
  by_cases hroom : typeSupply.count s + 1 < counterRange
  · rw [if_pos hroom] at hrun
    exact .of_ok hrun ⟨rfl, rfl⟩
  · rw [if_neg hroom] at hrun
    exact .of_overflow hrun (.inl (Nat.le_of_not_lt hroom))

theorem freshTerm_yields (s : Inference) : Yields excused (fun _ => onTerms NameTable.freshVar)
    (fun v s' => v = NameTable.numbered s.terms.nextVar ∧ s' = drawTerms 1 s ∧
      s.terms.nextVar + 1 < counterRange) s := by
  have hrun := s.terms.freshVar_eq
  by_cases hroom : s.terms.nextVar + 1 < counterRange
  · rw [if_pos hroom] at hrun
    exact .of_ok (onTerms_of_ok hrun) ⟨rfl, rfl, hroom⟩
  · rw [if_neg hroom] at hrun
    exact .of_overflow (onTerms_of_error hrun) (.inr (Nat.le_of_not_lt hroom))

/-- Nothing is written where no record is kept. -/
theorem record_untraced (hs : s.tracing = false) (step : Unit → Except Fault InferStep) :
    record step s = .ok () s := by
  unfold record
  rw [Stateful.get_then, hs]
  rfl

/-! ## The rules -/

theorem var_yields (hs : s.tracing = false) {x : String} {entry : Judgment}
    (h : s.symbols.get? x = some entry) :
    Yields excused (fun _ => var x) (fun k s' => s'.symbols = s.symbols ∧
      s'.types = (drawTypes entry.type.scheme.bound.length s).types ∧
      k.Has (entry.type.openedBy (typeSupply.next s entry.type.scheme.bound.length)
        (termSupply.next s.terms entry.type.toPolytype.body.arity))) s := by
  refine .after 0 (fun _ _ => rfl) ?_
  rw [h]
  rcases instantiate_cases entry.type s with hrun | ⟨s', hrun, hfull, -⟩
  · refine .after 0 (fun _ _ => hrun) (.after 0 (fun _ _ => record_untraced (by exact hs) _) ?_)
    exact .of_ok rfl ⟨rfl, rfl, _, rfl⟩
  · exact .of_overflow (Stateful.bind_of_error hrun) hfull

/-- An application goes through if the equation between its premises has a solution, and it is stopped
if unification is. -/
theorem app_yields (hs : s.tracing = false) {natives : InstructionSet} {j₀ j₁ : Judgment}
    {m₀ m₁ : Monotype} (h₀ : j₀.type = .mono m₀) (h₁ : j₁.type = .mono m₁) {P : TypeContext → Prop}
    (hunify : ∃ bound,
      (∃ d, (∀ n, bound ≤ n → TypeContext.unify natives n m₀
        (.arrow m₁ (.var (s.types.numbered s.types.nextVar))) (drawTypes 1 s).types = .ok .ok d) ∧ P d) ∨
      ∃ f d, (∀ n, bound ≤ n → TypeContext.unify natives n m₀
        (.arrow m₁ (.var (s.types.numbered s.types.nextVar))) (drawTypes 1 s).types = .error f d) ∧
        excused f) :
    Yields excused (fun n => app ⟨natives, n⟩ j₀ j₁) (fun k s' => s'.symbols = s.symbols ∧ P s'.types ∧
      k.Has (s'.types.find (.var (s.types.numbered s.types.nextVar)))) s := by
  unfold app
  rw [h₀, h₁]
  refine .after 0 (fun _ _ => instantiate_mono m₀ s) ?_
  refine .after 0 (fun _ _ => instantiate_mono m₁ s) ?_
  refine .bind (fresh_yields s) ?_
  rintro _ _ _ - ⟨rfl, rfl⟩
  obtain ⟨bound, ⟨d, hrun, hd⟩ | ⟨f, d, hrun, hf⟩⟩ := hunify
  · refine .after bound (fun n hn => onTypes_of_ok (hrun n hn)) (.after 0 (fun _ _ => rfl) ?_)
    refine .after 0 (fun _ _ => record_untraced (by exact hs) _) ?_
    exact .of_ok rfl ⟨rfl, hd, _, rfl⟩
  · exact ⟨bound, .inr ⟨f, _, fun n hn => Stateful.bind_of_error (onTypes_of_error (hrun n hn)),
      .inr hf⟩⟩

theorem abs_yields (x : String) (s : Inference) : Yields excused (fun _ => abs x) (fun premise s' =>
    premise = ⟨x, .var (s.types.numbered s.types.nextVar)⟩ ∧
    s'.symbols = s.symbols.add x (.mono (.var (s.types.numbered s.types.nextVar))) ∧
    s'.types = (drawTypes 1 s).types) s := by
  refine .bind (fresh_yields s) ?_
  rintro _ _ _ - ⟨rfl, rfl⟩
  exact .after 0 (fun _ _ => rfl) (.of_ok rfl ⟨rfl, rfl, rfl⟩)

/-- An abstraction is discharged if its body has been elaborated and the counter of the name table
has gone up with the abstractions inside. -/
theorem dischargeAbs_yields (hs : s.tracing = false) {premise : OpenAbs} {j : Judgment} {m : Monotype}
    {e : Expr} (hj : j.type = .mono m) (he : e.Elaborates .everywhere [] j.term)
    (hnesting : e.nesting ≤ s.terms.nextVar) :
    Yields excused (fun _ => dischargeAbs premise j) (fun k s' =>
      s'.symbols = s.symbols.remove premise.param ∧ s'.types = s.types ∧
      k.Has (.arrow premise.domain m)) s := by
  unfold dischargeAbs
  rw [hj]
  refine .after 0 (fun _ _ => rfl) (.after 0 (fun _ _ => instantiate_mono m _) ?_)
  refine .bind (freshTerm_yields _) ?_
  rintro _ _ _ - ⟨rfl, rfl, hroom⟩
  have hdepth : Scope.depth [] + e.nesting + 1 < wordRange := by
    have hroom' : s.terms.nextVar + 1 < counterRange := hroom
    simp only [Scope.depth]
    unfold counterRange at hroom'
    unfold wordRange
    omega
  obtain ⟨u, t, hu, ht, -⟩ := he.enclose (x := premise.param) (by simp) _ hdepth
  refine .after 0 (fun _ _ => Stateful.ofExcept_eq_ok.mpr ⟨hu, rfl⟩) ?_
  refine .after 0 (fun _ _ => Stateful.ofExcept_eq_ok.mpr
    ⟨Term.bind_eq_ok_iff.mpr ⟨by simp, t, ht, rfl⟩, rfl⟩) ?_
  refine .after 0 (fun _ _ => record_untraced (by exact hs) _) ?_
  exact .of_ok rfl ⟨rfl, rfl, _, rfl⟩

theorem letIn_yields (hs : s.tracing = false) {x : String} {j : Judgment} {m : Monotype}
    (hj : j.type = .mono m) :
    Yields excused (fun _ => letIn x j) (fun premise s' => premise.name = x ∧
      s'.symbols = s.symbols.add x (s.generalize m).toType ∧ s'.types = s.types) s := by
  unfold letIn
  rw [hj]
  refine .after 0 (fun _ _ => instantiate_mono m s) (.after 0 (fun _ _ => rfl) ?_)
  refine .after 0 (fun _ _ => record_untraced (by exact hs) _) ?_
  exact .after 0 (fun _ _ => rfl) (.of_ok rfl ⟨rfl, rfl, rfl⟩)

theorem dischargeLet_yields (hs : s.tracing = false) {premise : OpenLet} {j : Judgment} {m : Monotype}
    (hj : j.type = .mono m) : Yields excused (fun _ => dischargeLet premise j) (fun k s' =>
      s'.symbols = s.symbols.remove premise.name ∧ s'.types = s.types ∧ k.Has m) s := by
  refine .after 0 (fun _ _ => rfl) (.after 0 (fun _ _ => record_untraced (by exact hs) _) ?_)
  exact .of_ok rfl ⟨rfl, rfl, _, by rw [hj]⟩

end Inference

/-- What the rules keep is kept when an expression is inferred. -/
theorem Expr.infer_kept {P : TypeContext → Prop} (hP : TypeContext.Lasting P) (ev : Evaluator)
    (e : Expr) {tracing : Bool} : Keeps (Inference.Kept P tracing) (e.infer ev) := by
  induction e with
  | name x => exact Inference.kept_var hP x
  | app operator operand ih₀ ih₁ =>
      refine .bind ih₀ fun k₀ => ?_
      cases k₀ with
      | failed status => exact .pure _
      | concluded j₀ =>
          refine .bind ih₁ fun k₁ => ?_
          cases k₁ with
          | failed status => exact .pure _
          | concluded j₁ => exact Inference.kept_app hP ev j₀ j₁
  | lam x body ih =>
      refine .bind (Inference.kept_abs hP x) fun premise => .bind ih fun k => ?_
      cases k with
      | failed status => exact .pure _
      | concluded j => exact Inference.kept_dischargeAbs hP premise j
  | letIn x bound body ih₀ ih₁ =>
      refine .bind ih₀ fun k₀ => ?_
      cases k₀ with
      | failed status => exact .pure _
      | concluded j₀ =>
          refine .bind (Inference.kept_letIn hP x j₀) fun premise => .bind ih₁ fun k₁ => ?_
          cases k₁ with
          | failed status => exact .pure _
          | concluded j₁ => exact Inference.kept_dischargeLet premise j₁

end IndexedLambda
