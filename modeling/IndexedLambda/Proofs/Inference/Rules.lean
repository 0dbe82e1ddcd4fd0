import IndexedLambda.Proofs.Inference.Derivation
import IndexedLambda.Proofs.Inference.Session
import IndexedLambda.Proofs.Unification.Complete
import IndexedLambda.Proofs.Unification.Sound
/-!
# What the rules do

One statement for each inference rule: what its conclusion is, and what it has done to the symbol
table and to the classes. Proofs about inference use these statements and do not open the rules
again.

The rules are described for ordinary types, which have no dependent instance and no variable called
`_`. A type that is opened gets new variables for its bound ones, and nothing else about it
changes.
-/

namespace IndexedLambda

/-- The type has no dependent instance and no variable called `_`. -/
structure Monotype.Ordinary (m : Monotype) : Prop where
  indexFree : m.isIndexFree = true
  named : ∀ v ∈ m.occurrences, v.isWildcard = false

/-- Without dependent instances, the body of a type is a monotype. -/
theorem Ty.body_of_isIndexFree {y : Ty} (hy : y.scheme.type.isIndexFree = true) :
    y.toPolytype.body = .mono y.scheme.type := by
  unfold Ty.scheme at hy ⊢
  cases hbody : y.toPolytype.body with
  | mono b => rfl
  | dependent d =>
      rw [hbody] at hy
      cases hy

namespace Inference

variable {α β : Type} {s s' : Inference}

theorem onTypes_eq_ok {x : ContextM α} {a : α} : onTypes x s = .ok a s' ↔
    ∃ types, x s.types = .ok a types ∧ s' = { s with types } := by
  unfold onTypes
  cases hx : x s.types with
  | ok b types =>
      simp only [EStateM.Result.ok.injEq]
      constructor
      · rintro ⟨rfl, rfl⟩
        exact ⟨types, ⟨rfl, rfl⟩, rfl⟩
      · rintro ⟨types', ⟨rfl, rfl⟩, rfl⟩
        exact ⟨rfl, rfl⟩
  | error e types => simp

/-- The symbol table and the classes are the same. -/
structure Unchanged (s s' : Inference) : Prop where
  symbols : s'.symbols = s.symbols
  known : s'.types.known = s.types.known

theorem Unchanged.refl (s : Inference) : Unchanged s s := ⟨rfl, rfl⟩

theorem Unchanged.trans {s₁ s₂ s₃ : Inference} (h : Unchanged s₁ s₂) (h' : Unchanged s₂ s₃) :
    Unchanged s₁ s₃ := ⟨h'.symbols.trans h.symbols, h'.known.trans h.known⟩

theorem record_eq_ok {step : Unit → Except Fault InferStep} {u : Unit}
    (h : record step s = .ok u s') : s'.symbols = s.symbols ∧ s'.types = s.types :=
  (keeps_record (P := fun s' => s'.symbols = s.symbols ∧ s'.types = s.types) (fun _ _ h => h)
    step).of_ok h ⟨rfl, rfl⟩

theorem onTerms_unchanged {x : EStateM Fault NameTable α} {a : α} (h : onTerms x s = .ok a s') :
    s'.symbols = s.symbols ∧ s'.types = s.types := by
  unfold onTerms at h
  cases hx : x s.terms with
  | ok b terms => rw [hx] at h; cases h; exact ⟨rfl, rfl⟩
  | error e terms => rw [hx] at h; cases h

/-! ## Opening a type -/

theorem isWildcard_dollar (n : Nat) (number : Int) :
    (⟨s!"${n}", number⟩ : TypeVariable).isWildcard = false := by
  refine Bool.eq_false_iff.mpr fun h => ?_
  have hname : s!"${n}" = "_" := by simpa [TypeVariable.isWildcard, TypeVariable.wildcardName] using h
  have hlist : (s!"${n}").toList = '$' :: (toString n).toList := by rw [String.toList_append]; rfl
  rw [hname] at hlist
  exact absurd hlist (by simp)

theorem freshVar_spec {c d : TypeContext} {v : TypeVariable}
    (h : TypeContext.freshVar c = .ok v d) : v.isWildcard = false ∧ d.known = c.known := by
  have hknown := TypeContext.freshVar_known c
  rw [h, endOf_ok] at hknown
  refine ⟨?_, hknown⟩
  unfold TypeContext.freshVar at h
  rw [Stateful.get_then] at h
  cases hnext : nextCount c.nextVar with
  | ok next =>
      rw [hnext] at h
      cases h
      exact isWildcard_dollar _ _
  | error f =>
      rw [hnext] at h
      cases h

theorem fresh_spec {m : Monotype} (h : onTypes TypeContext.fresh s = .ok m s') :
    ∃ v : TypeVariable, m = .var v ∧ v.isWildcard = false ∧ Unchanged s s' := by
  obtain ⟨types, htypes, rfl⟩ := onTypes_eq_ok.mp h
  obtain ⟨v, c, hv, hpure⟩ := Stateful.bind_eq_ok.mp htypes
  cases hpure
  obtain ⟨hname, hknown⟩ := freshVar_spec hv
  exact ⟨v, rfl, hname, rfl, hknown⟩

/-- Fresh variables for as many binders. -/
theorem mapM_fresh_spec {binders : List TypeVariable} {ms : List Monotype}
    (h : (binders.mapM fun _ => onTypes TypeContext.fresh) s = .ok ms s') :
    ms.length = binders.length ∧
      (∀ m ∈ ms, ∃ v : TypeVariable, m = .var v ∧ v.isWildcard = false) ∧ Unchanged s s' := by
  induction binders generalizing s ms with
  | nil => cases h; exact ⟨rfl, by simp, .refl _⟩
  | cons b binders ih =>
      rw [List.mapM_cons] at h
      obtain ⟨m, s₁, hm, h⟩ := Stateful.bind_eq_ok.mp h
      obtain ⟨ms', s₂, hms', h⟩ := Stateful.bind_eq_ok.mp h
      cases h
      obtain ⟨v, rfl, hv, hsame⟩ := fresh_spec hm
      obtain ⟨hlength, hvars, hsame'⟩ := ih hms'
      refine ⟨by rw [List.length_cons, List.length_cons, hlength], ?_, hsame.trans hsame'⟩
      exact List.forall_mem_cons.mpr ⟨⟨v, rfl, hv⟩, hvars⟩

theorem lookup_zip_of_mem {v : TypeVariable} {vars : List TypeVariable} {ms : List Monotype}
    (hlength : ms.length = vars.length) (hv : v ∈ vars) :
    ∃ m ∈ ms, (vars.zip ms).lookup v = some m := by
  induction vars generalizing ms with
  | nil => cases hv
  | cons w vars ih =>
      cases ms with
      | nil => cases hlength
      | cons m ms =>
          rw [List.zip_cons_cons, List.lookup_cons]
          by_cases hvw : v = w
          · exact ⟨m, by simp, by simp [hvw]⟩
          · obtain ⟨m', hm', hlookup⟩ := ih (Nat.succ.inj hlength)
              ((List.mem_cons.mp hv).resolve_left hvw)
            rw [beq_false_of_ne hvw]
            exact ⟨m', List.mem_cons_of_mem m hm', hlookup⟩

theorem lookup_zip_of_not_mem {v : TypeVariable} {vars : List TypeVariable} (ms : List Monotype)
    (hv : v ∉ vars) : (vars.zip ms).lookup v = none := by
  induction vars generalizing ms with
  | nil => rfl
  | cons w vars ih =>
      cases ms with
      | nil => rfl
      | cons m ms =>
          rw [List.mem_cons, not_or] at hv
          rw [List.zip_cons_cons, List.lookup_cons, beq_false_of_ne hv.1]
          exact ih ms hv.2

/-- The type is the scheme's, with variables that are not called `_` for its bound variables. -/
def Opens (p : Scheme) (m : Monotype) : Prop :=
  ∃ τ : TypeVariable → TypeVariable, (∀ v ∈ p.bound, (τ v).isWildcard = false) ∧
    (∀ v, v ∉ p.bound → τ v = v) ∧ m = p.type.subst fun v => .var (τ v)

theorem instantiate_spec {y : Ty} (hy : y.scheme.type.isIndexFree = true) {m : Monotype}
    (h : instantiate y s = .ok m s') : Opens y.scheme m ∧ Unchanged s s' := by
  obtain ⟨ms, s₁, hms, h⟩ := Stateful.bind_eq_ok.mp h
  obtain ⟨m', s₂, hm', h⟩ := Stateful.bind_eq_ok.mp h
  obtain ⟨hlength, hvars, hsame⟩ := mapM_fresh_spec hms
  rw [Ty.body_of_isIndexFree hy] at hm'
  cases hm'
  cases h
  refine ⟨?_, hsame⟩
  -- every bound variable has been paired with a fresh one, the others are left alone
  have hassign : ∀ v, ∃ w : TypeVariable, Monotype.assign (y.scheme.bound.zip ms) v = .var w ∧
      (v ∈ y.scheme.bound → w.isWildcard = false) ∧ (v ∉ y.scheme.bound → w = v) := by
    intro v
    by_cases hv : v ∈ y.scheme.bound
    · obtain ⟨m, hm, hlookup⟩ : ∃ m ∈ ms, (y.scheme.bound.zip ms).lookup v = some m :=
        lookup_zip_of_mem hlength hv
      obtain ⟨w, rfl, hw⟩ := hvars m hm
      refine ⟨w, ?_, fun _ => hw, fun hnot => absurd hv hnot⟩
      rw [Monotype.assign, hlookup]
      rfl
    · refine ⟨v, ?_, fun hmem => absurd hmem hv, fun _ => rfl⟩
      rw [Monotype.assign, lookup_zip_of_not_mem ms hv]
      rfl
  choose τ hτ hbound hother using hassign
  exact ⟨τ, hbound, hother, Monotype.subst_congr fun v _ => hτ v⟩

/-- A monotype is opened as it is. -/
theorem instantiate_mono (m : Monotype) (s : Inference) :
    instantiate (.mono m) s = .ok m s := by
  have hsubst : m.subst (.assign []) = m := Monotype.subst_eq_self fun _ _ => rfl
  show EStateM.Result.ok (m.subst (.assign [])) s = .ok m s
  rw [hsubst]

/-! ## The rules -/

theorem var_spec {x : String} {j : Judgment} (h : var x s = .ok (.concluded j) s') :
    ∃ entry m s₁, s.symbols.get? x = some entry ∧ instantiate entry.type s = .ok m s₁ ∧
      j.type = .mono m ∧ s'.symbols = s₁.symbols ∧ s'.types = s₁.types := by
  obtain ⟨c, s₀, hget, h⟩ := Stateful.bind_eq_ok.mp h
  cases hget
  cases hentry : s.symbols.get? x with
  | none =>
      rw [hentry] at h
      obtain ⟨u, s₁, -, h⟩ := Stateful.bind_eq_ok.mp h
      cases h
  | some entry =>
      rw [hentry] at h
      obtain ⟨m, s₁, hm, h⟩ := Stateful.bind_eq_ok.mp h
      obtain ⟨u, s₂, hrecord, h⟩ := Stateful.bind_eq_ok.mp h
      cases h
      exact ⟨entry, m, s₁, rfl, hm, rfl, record_eq_ok hrecord⟩

theorem app_spec {ev : Evaluator} {j₀ j₁ j : Judgment} {m₀ m₁ : Monotype}
    (h₀ : j₀.type = .mono m₀) (h₁ : j₁.type = .mono m₁)
    (h : app ev j₀ j₁ s = .ok (.concluded j) s') :
    ∃ (v : TypeVariable) (s₁ : Inference), v.isWildcard = false ∧ Unchanged s s₁ ∧
      TypeContext.unify ev.natives ev.fuel m₀ (.arrow m₁ (.var v)) s₁.types = .ok .ok s'.types ∧
      j.type = .mono (s'.types.find (.var v)) ∧ s'.symbols = s.symbols := by
  unfold app at h
  rw [h₀, h₁] at h
  obtain ⟨t₀, s₁, ht₀, h⟩ := Stateful.bind_eq_ok.mp h
  rw [instantiate_mono] at ht₀
  cases ht₀
  obtain ⟨t₁, s₂, ht₁, h⟩ := Stateful.bind_eq_ok.mp h
  rw [instantiate_mono] at ht₁
  cases ht₁
  obtain ⟨t₂, s₃, ht₂, h⟩ := Stateful.bind_eq_ok.mp h
  obtain ⟨v, rfl, hv, hsame⟩ := fresh_spec ht₂
  obtain ⟨status, s₄, hunify, h⟩ := Stateful.bind_eq_ok.mp h
  obtain ⟨types, hrun, rfl⟩ := onTypes_eq_ok.mp hunify
  split at h
  · rename_i hok
    obtain ⟨c, s₅, hget, h⟩ := Stateful.bind_eq_ok.mp h
    cases hget
    obtain ⟨u, s₆, hrecord, h⟩ := Stateful.bind_eq_ok.mp h
    obtain ⟨hsymbols, htypes⟩ := record_eq_ok hrecord
    cases h
    refine ⟨v, s₃, hv, hsame, ?_, ?_, hsymbols.trans hsame.symbols⟩
    · rw [hrun, hok, htypes]
    · rw [htypes]
  · obtain ⟨u, s₅, -, h⟩ := Stateful.bind_eq_ok.mp h
    cases h

theorem abs_spec {x : String} {premise : OpenAbs} (h : abs x s = .ok premise s') :
    ∃ v : TypeVariable, v.isWildcard = false ∧ premise = ⟨x, .var v⟩ ∧
      s'.symbols = s.symbols.add x (.mono (.var v)) ∧ s'.types.known = s.types.known := by
  obtain ⟨m, s₁, hm, h⟩ := Stateful.bind_eq_ok.mp h
  obtain ⟨v, rfl, hv, hsame⟩ := fresh_spec hm
  obtain ⟨u, s₂, hadd, h⟩ := Stateful.bind_eq_ok.mp h
  cases hadd
  cases h
  refine ⟨v, hv, rfl, ?_, hsame.known⟩
  show s₁.symbols.add x (.mono (.var v)) = _
  rw [hsame.symbols]

theorem dischargeAbs_spec {premise : OpenAbs} {body : Judgment} {m : Monotype} {k : Conclusion}
    (hbody : body.type = .mono m) (h : dischargeAbs premise body s = .ok k s') :
    (∃ term, k = .concluded ⟨term, .mono (.arrow premise.domain m)⟩) ∧
      s'.symbols = s.symbols.remove premise.param ∧ s'.types = s.types := by
  unfold dischargeAbs at h
  rw [hbody] at h
  obtain ⟨u, s₁, hremove, h⟩ := Stateful.bind_eq_ok.mp h
  cases hremove
  obtain ⟨range, s₂, hrange, h⟩ := Stateful.bind_eq_ok.mp h
  rw [instantiate_mono] at hrange
  cases hrange
  obtain ⟨v, s₃, hv, h⟩ := Stateful.bind_eq_ok.mp h
  obtain ⟨hsymbols, htypes⟩ := onTerms_unchanged hv
  obtain ⟨e, s₄, he, hrest⟩ := Stateful.bind_eq_ok.mp h
  obtain ⟨term, s₅, hterm, hlast⟩ := Stateful.bind_eq_ok.mp hrest
  obtain ⟨u, s₆, hrecord, hpure⟩ := Stateful.bind_eq_ok.mp hlast
  obtain ⟨hsymbols', htypes'⟩ := record_eq_ok hrecord
  rw [← (Stateful.ofExcept_eq_ok.mp hterm).2, ← (Stateful.ofExcept_eq_ok.mp he).2] at hsymbols' htypes'
  cases hpure
  exact ⟨⟨term, rfl⟩, hsymbols'.trans hsymbols, htypes'.trans htypes⟩

theorem letIn_spec {x : String} {bound : Judgment} {m : Monotype} {premise : OpenLet}
    (hbound : bound.type = .mono m) (h : letIn x bound s = .ok premise s') :
    premise.name = x ∧ s'.symbols = s.symbols.add x (s.generalize m).toType ∧
      s'.types = s.types := by
  unfold letIn at h
  rw [hbound] at h
  obtain ⟨m', s₁, hm', h⟩ := Stateful.bind_eq_ok.mp h
  rw [instantiate_mono] at hm'
  cases hm'
  obtain ⟨c, s₂, hget, h⟩ := Stateful.bind_eq_ok.mp h
  cases hget
  obtain ⟨u, s₃, hrecord, h⟩ := Stateful.bind_eq_ok.mp h
  obtain ⟨u, s₄, hadd, h⟩ := Stateful.bind_eq_ok.mp h
  obtain ⟨hsymbols, htypes⟩ := record_eq_ok hrecord
  cases hadd
  cases h
  refine ⟨rfl, ?_, htypes⟩
  show s₃.symbols.add x (s.generalize m).toType = _
  rw [hsymbols]

theorem dischargeLet_spec {premise : OpenLet} {body : Judgment} {k : Conclusion}
    (h : dischargeLet premise body s = .ok k s') :
    (∃ term, k = .concluded ⟨term, body.type⟩) ∧
      s'.symbols = s.symbols.remove premise.name ∧ s'.types = s.types := by
  obtain ⟨u, s₁, hremove, h⟩ := Stateful.bind_eq_ok.mp h
  cases hremove
  obtain ⟨u, s₂, hrecord, h⟩ := Stateful.bind_eq_ok.mp h
  obtain ⟨hsymbols, htypes⟩ := record_eq_ok hrecord
  cases h
  exact ⟨⟨_, rfl⟩, hsymbols, htypes⟩

end Inference

end IndexedLambda
