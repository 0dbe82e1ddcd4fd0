import IndexedLambda.Proofs.Evaluation.Run
import IndexedLambda.Proofs.Term.Alike
/-!
# Relations that evaluation follows

On terms without instructions everything the evaluator does is made of contractions, in operators, in
local definitions and below the binders that remain. So a relation between terms that contains the
contractions and is closed under these contexts relates every term with what the evaluator makes of it.
`Compatible` asks this of a relation, given with the number of binders around the terms. `Followed` adds
that preparing an argument, which the evaluator does where it starts, stays within the relation, and
`Followed.traces` is the induction over the evaluator.
-/

namespace IndexedLambda.Term

/-- Contains the contractions, and is closed under the contexts in which the evaluator reduces. -/
structure Compatible (R : Nat → Term → Term → Prop) : Prop where
  refl : ∀ {i} (t : Term), R i t t
  trans : ∀ {i} {t u w : Term}, R i t u → R i u w → R i t w
  contract : ∀ {i} (v : Variable) (rest : List Variable) (body arg : Term),
    R i (.app (.abs (v :: rest) body) arg) (wrap rest (body.instantiate rest.length arg))
  wrap : ∀ {i} {t u : Term} (rest : List Variable), R (i + rest.length) t u →
    R i (wrap rest t) (wrap rest u)
  operator : ∀ {i} {l l' : Term} (r : Term), R i l l' → R i (.app l r) (.app l' r)
  define : ∀ {i} {a a' b b' : Term} (form : LetForm) (x : String), R i a a' → R i b b' →
    R i (.define form x a b) (.define form x a' b')
  recur : ∀ {i} {defs defs' : List (String × Term)} {b b' : Term},
    List.Forall₂ (fun p q => p.1 = q.1 ∧ R i p.2 q.2) defs defs' → R i b b' →
    R i (.recur defs b) (.recur defs' b')

/-- A compatible relation, on terms without instructions that evaluation keeps of one kind, in which an
argument is related to the prepared argument. -/
structure Followed (natives : InstructionSet) (step : Discipline) (outside : List String → Prop)
    (R : Nat → Term → Term → Prop) : Prop extends Compatible R where
  evaluable : Evaluable natives step (fun d scope => d = step ∧ outside scope)
  free : ∀ {head k}, ¬ step.arguments head k
  prepare : ∀ {scope} {arg : Term} (f : Term), outside scope → arg.Respects step scope →
    R scope.length (.app f arg) (.app f arg.assignFree)

/-- What the functions of reduction give with the given fuel is related with what they were given. -/
structure Traces (natives : InstructionSet) (step : Discipline) (outside : List String → Prop)
    (R : Nat → Term → Term → Prop) (n : Nat) : Prop where
  force : ∀ {scope} {t t' : Term}, outside scope → t.Respects step scope →
    force natives n t = .ok t' → R scope.length t t'
  feed : ∀ {scope} {t arg t' : Term}, outside scope → t.Respects step scope →
    arg.Respects step scope → feed natives n t arg = .ok t' → R scope.length (.app t arg) t'
  /-- An application contracts at least once. -/
  apply : ∀ {scope binders body} {arg t : Term}, outside scope →
    (abs binders body).Respects step scope → arg.Respects step scope →
    apply natives n binders body arg = .ok t →
    ∃ v rest, binders = v :: rest ∧
      R scope.length (wrap rest (body.instantiate rest.length arg.assignFree)) t
  settle : ∀ {scope flag} {t t' : Term}, t.Respects step scope →
    settle natives n t flag = .ok t' → R scope.length t t'
  advance : ∀ {scope more} {t t' : Term}, t.Respects step scope →
    advance natives n t = .ok (t', more) → R scope.length t t'

variable {natives : InstructionSet} {step : Discipline} {outside : List String → Prop}
  {R : Nat → Term → Term → Prop} {n : Nat} {scope : List String}

namespace Traces

variable (hR : Followed natives step outside R) (ih : Traces natives step outside R n)

include hR ih

theorem force_succ {t t' : Term} (hout : outside scope) (ht : t.Respects step scope)
    (h : Term.force natives (n + 1) t = .ok t') : R scope.length t t' := by
  have hkeeps := hR.evaluable.preserves n
  cases forceCase h with
  | exposed => exact hR.refl _
  | applied hoperator hresult =>
      obtain ⟨hl, hr⟩ := respects_app.mp ht
      have hl' := hkeeps.force ⟨rfl, hout⟩ hl hoperator
      exact hR.trans (hR.operator _ (ih.force hout hl hoperator)) (ih.feed hout hl' hr hresult)
  | blocked r hoperator => exact hR.operator r (ih.force hout (respects_app.mp ht).1 hoperator)
  | called => exact absurd (respects_instr.mp ht).1 hR.free
  | define form x ha' hb' =>
      obtain ⟨ha, hb⟩ := respects_define.mp ht
      exact hR.define form x (ih.force hout ha ha') (ih.force hout hb hb')
  | recur hdefs' hb' =>
      obtain ⟨-, hdefs, hb⟩ := respects_recur.mp ht
      have hboth := (List.forall₂_and_left _ _).mpr ⟨hdefs, hdefs'⟩
      refine hR.recur (hboth.imp fun p q hpq => ?_) (ih.force hout hb hb')
      exact ⟨hpq.2.1, ih.force hout hpq.1 hpq.2.2⟩

theorem apply_succ {binders : List Variable} {body arg t : Term} (hout : outside scope)
    (hf : (abs binders body).Respects step scope) (harg : arg.Respects step scope)
    (h : Term.apply natives (n + 1) binders body arg = .ok t) :
    ∃ v rest, binders = v :: rest ∧
      R scope.length (Term.wrap rest (body.instantiate rest.length arg.assignFree)) t := by
  obtain ⟨v, rest, result, flag, settled, rfl, hcontract, hsettled, rfl⟩ := apply_eq_ok.mp h
  have hresult := hR.evaluable.contracted hf (hR.evaluable.argument ⟨rfl, hout⟩ harg) hcontract
  have hrelated := ih.settle (respects_wrap.mp hresult).2 hsettled
  rw [length_under] at hrelated
  refine ⟨v, rest, rfl, ?_⟩
  rw [← (contract_eq_ok (hR.evaluable.sound hf) hcontract).1]
  exact hR.wrap rest hrelated

theorem feed_succ {t arg t' : Term} (hout : outside scope) (ht : t.Respects step scope)
    (harg : arg.Respects step scope) (h : Term.feed natives (n + 1) t arg = .ok t') :
    R scope.length (.app t arg) t' := by
  cases feedCase h with
  | applied hresult =>
      obtain ⟨v, rest, rfl, hrelated⟩ := ih.apply hout ht harg hresult
      exact hR.trans (hR.prepare _ hout harg) (hR.trans (hR.contract v rest _ _) hrelated)
  | handed => exact absurd (respects_instr.mp ht).1 hR.free
  | blocked => exact hR.refl _

theorem settle_succ {t t' : Term} {flag : Bool} (ht : t.Respects step scope)
    (h : Term.settle natives (n + 1) t flag = .ok t') : R scope.length t t' := by
  rcases settle_eq_ok h with rfl | ⟨u, more, hu, hsettled⟩
  · exact hR.refl _
  · exact hR.trans (ih.advance ht hu) (ih.settle ((hR.evaluable.preserves n).advance ht hu) hsettled)

theorem advance_succ {t t' : Term} {more : Bool} (ht : t.Respects step scope)
    (h : Term.advance natives (n + 1) t = .ok (t', more)) : R scope.length t t' := by
  cases advanceCase h with
  | exposed => exact hR.refl _
  | inside r hoperator => exact hR.operator r (ih.advance (respects_app.mp ht).1 hoperator)
  | @contracted l r body _ binders _ hoperator hresult =>
      have hl := (respects_app.mp ht).1
      have hf := (hR.evaluable.preserves n).advance hl hoperator
      cases binders with
      | nil => cases hresult
      | cons v rest =>
          rw [(contract_eq_ok (hR.evaluable.sound hf) hresult).1]
          exact hR.trans (hR.operator r (ih.advance hl hoperator)) (hR.contract v rest body r)
  | handed hoperator =>
      have hinstr := (hR.evaluable.preserves n).advance (respects_app.mp ht).1 hoperator
      exact absurd (respects_instr.mp hinstr).1 hR.free
  | blocked r hoperator => exact hR.operator r (ih.advance (respects_app.mp ht).1 hoperator)
  | called => exact absurd (respects_instr.mp ht).1 hR.free

end Traces

/-- **Evaluation follows every relation** that is compatible and lets arguments be prepared. -/
theorem Followed.traces (hR : Followed natives step outside R) (n : Nat) :
    Traces natives step outside R n := by
  induction n with
  | zero =>
      constructor
      all_goals intros
      all_goals contradiction
  | succ n ih =>
      exact ⟨ih.force_succ hR, ih.feed_succ hR, ih.apply_succ hR, ih.settle_succ hR,
        ih.advance_succ hR⟩

/-- Stabilizing forces again and again, and stops at a term that forcing leaves as it is. -/
theorem Followed.stabilize (hR : Followed natives step outside R) (hout : outside []) {t t' : Term}
    (ht : t.Respects step []) (h : stabilize natives n t = .ok t') :
    R 0 t t' ∧ t'.Respects step [] ∧ ∃ m, force natives m t' = .ok t' := by
  induction n generalizing t with
  | zero => cases h
  | succ n ih =>
      rw [Term.stabilize] at h
      obtain ⟨next, hnext, h⟩ := bind_eq_ok.mp h
      have hstep := (hR.traces n).force hout ht hnext
      have hkeeps := (hR.evaluable.preserves n).force ⟨rfl, hout⟩ ht hnext
      split at h
      case isTrue hsame =>
        cases h
        obtain rfl := hsame.eq_of_free hR.free hkeeps ht
        exact ⟨hstep, hkeeps, n, hnext⟩
      case isFalse =>
        obtain ⟨hrest, hend⟩ := ih hkeeps h
        exact ⟨hR.trans hstep hrest, hend⟩

theorem Followed.headNormal (hR : Followed natives step outside R) (hout : outside []) {t t' : Term}
    (ht : t.Respects step []) (h : headNormal natives n t = .ok t') :
    R 0 t t' ∧ t'.Respects step [] ∧ ∃ m, force natives m t' = .ok t' := by
  obtain ⟨next, hnext, h⟩ := bind_eq_ok.mp h
  have hkeeps := (hR.evaluable.preserves n).force ⟨rfl, hout⟩ ht hnext
  obtain ⟨hrest, hend⟩ := hR.stabilize hout hkeeps h
  exact ⟨hR.trans ((hR.traces n).force hout ht hnext) hrest, hend⟩

end IndexedLambda.Term
