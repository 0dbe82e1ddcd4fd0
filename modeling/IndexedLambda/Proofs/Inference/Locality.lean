import IndexedLambda.Proofs.Inference.Freshness
/-!
# The reach of a unification

A unification binds only variables that the resolved types of its two sides mention. A type that has
none of them resolves to the same as before, however the run ends (`Grows.resolve_outside`). The
region to look at is everything outside the one type: the run stays in it.

For the App rule the two sides are the premises with their bound variables opened, and a fresh
variable for the result. A rule that fails reports once and leaves Γ alone. It can have bound
variables on the way, but only such that a premise mentions or that it has drawn itself. What a name
stands for is therefore safe if it shares nothing with the premises and the drawn variables. A
client that keeps off the variables still to come need not think of the latter, and one that does
not can see a type change that neither premise has anything to do with.
-/

namespace IndexedLambda

open Relation

/-! ## Types with nothing in common -/

/-- The types have no type variable and no index variable in common. -/
structure Monotype.Unshared (m n : Monotype) : Prop where
  types : ∀ v ∈ m.occurrences, v ∉ n.occurrences
  terms : ∀ w, Term.var w ∈ m.indexTerms → Term.var w ∉ n.indexTerms

theorem Monotype.unshared_of_no_index {m n : Monotype}
    (htypes : ∀ v ∈ m.occurrences, v ∉ n.occurrences) (hterms : n.indexTerms = []) :
    m.Unshared n :=
  ⟨htypes, fun w _ hw => by simp [hterms] at hw⟩

namespace Region

/-- Every type variable and index variable that is not in the type, and every other index term. -/
def outside (m : Monotype) : Region :=
  ⟨(· ∉ m.occurrences), fun t => ∀ w, t = .var w → t ∉ m.indexTerms⟩

theorem holds_outside {m n : Monotype} : (outside m).Holds n ↔ m.Unshared n := by
  constructor
  · intro h
    exact ⟨fun v hm hn => h.types v hn hm, fun w hm hn => h.terms _ hn w rfl hm⟩
  · intro h
    exact ⟨fun v hn hm => h.types v hm hn, fun t hn w ht hm => h.terms w (ht ▸ hm) (ht ▸ hn)⟩

end Region

theorem Binds.resolve_outside {c d : Classes} (hc : c.Acyclic) {x : Monotype}
    (h : Binds (.outside (c.resolve x)) c d) : d.resolve x = c.resolve x := by
  cases h with
  | @type v m hv hm hout hspared _ =>
      rw [hc.resolve_bind_type hv hm hout]
      refine Monotype.subst_eq_self fun u hu => ?_
      have huv : u ≠ v := fun e => hspared (e ▸ hu)
      exact if_neg huv
  | @kind v t hv ht hne hspared _ =>
      rw [hc.resolve_bind_kind hv ht hne]
      refine Monotype.mapIndex_eq_self fun s hs => ?_
      have hsv : s ≠ .var v := fun e => hspared v rfl (e ▸ hs)
      exact if_neg hsv

/-- Classes that grow outside a resolved type leave it as it is. -/
theorem Grows.resolve_outside {c d : Classes} (hc : c.Acyclic) {x : Monotype}
    (h : Grows (.outside (c.resolve x)) c d) : d.resolve x = c.resolve x := by
  induction h with
  | refl => rfl
  | tail hgrows hstep ih =>
      rw [← ih] at hstep
      exact (hstep.resolve_outside (Grows.acyclic hgrows hc)).trans ih

theorem TypeContext.unify_outside {c : TypeContext} (hc : c.known.Acyclic)
    (natives : InstructionSet) (n : Nat) {a b m : Monotype} (ha : (c.resolve m).Unshared (c.resolve a))
    (hb : (c.resolve m).Unshared (c.resolve b)) :
    (endOf (unify natives n a b c)).resolve m = c.resolve m :=
  Grows.resolve_outside hc
    (unify_grows n hc (Region.holds_outside.mpr ha) (Region.holds_outside.mpr hb))

/-! ## What a type mentions -/

/-- All that a type mentions, as a monotype. Its bound variables are constants there, so that
nothing is resolved but what is free. -/
def Ty.outline (y : Ty) : Monotype := y.toPolytype.body.frame.close y.scheme.bound

theorem Ty.outline_mono (m : Monotype) : (Ty.mono m).outline = m := m.close_nil

namespace Region

variable {R : Region}

theorem holds_outline {y : Ty} : R.Holds y.outline ↔
    (∀ v ∈ y.toPolytype.body.frame.occurrences, v ∉ y.scheme.bound → R.types v) ∧
      ∀ t ∈ y.toPolytype.body.frame.indexTerms, R.terms t := by
  constructor
  · intro h
    exact ⟨fun v hv hbound => h.types v (Monotype.mem_occurrences_close.mpr ⟨hv, hbound⟩),
      fun t ht => h.terms t (Monotype.mem_indexTerms_close.mpr ht)⟩
  · rintro ⟨htypes, hterms⟩
    refine ⟨fun v hv => ?_, fun t ht => hterms t (Monotype.mem_indexTerms_close.mp ht)⟩
    obtain ⟨hv, hbound⟩ := Monotype.mem_occurrences_close.mp hv
    exact htypes v hv hbound

theorem HoldsTy.outline {y : Ty} (h : R.HoldsTy y) : R.Holds y.outline :=
  holds_outline.mpr ⟨fun v hv _ => h.body.frame.types v hv, h.body.frame.terms⟩

/-- A type that is opened mentions what it mentioned before, and what it is opened with. -/
theorem holds_openedBy {y : Ty} {types : List Monotype} {terms : List Term}
    (hy : R.Holds y.outline) (hlength : types.length = y.scheme.bound.length)
    (htypes : ∀ m ∈ types, R.Holds m) (hterms : ∀ t ∈ terms, R.terms t) :
    R.Holds (y.openedBy types terms) := by
  obtain ⟨hfree, hindex⟩ := holds_outline.mp hy
  -- before the substitution the bound variables are there as well
  have hframe : Region.Holds ⟨fun v => v ∉ y.scheme.bound → R.types v, R.terms⟩
      y.toPolytype.body.frame := ⟨hfree, hindex⟩
  have hbody := hframe.openedBy hterms
  refine holds_subst.mpr ⟨fun v hv => ?_, hbody.terms⟩
  by_cases hbound : v ∈ y.scheme.bound
  · obtain ⟨m, hm, hlookup⟩ := Inference.lookup_zip_of_mem hlength hbound
    rw [Monotype.assign, hlookup]
    exact htypes m hm
  · exact Holds.assign (hbody.types v hv hbound) htypes

/-- What stands for something in the region. -/
def resolving (c : TypeContext) (R : Region) : Region :=
  ⟨fun v => R.Holds (c.resolve (.var v)), fun t => R.terms (c.findKind t)⟩

theorem holds_resolving {c : TypeContext} {m : Monotype} :
    (R.resolving c).Holds m ↔ R.Holds (c.resolve m) := by
  refine Iff.trans ?_ (holds_resolve (c := c.known)).symm
  exact ⟨fun h => ⟨h.types, h.terms⟩, fun h => ⟨h.1, h.2⟩⟩

theorem holds_resolve_arrow {c : TypeContext} {a b : Monotype} (ha : R.Holds (c.resolve a))
    (hb : R.Holds (c.resolve b)) : R.Holds (c.resolve (.arrow a b)) :=
  holds_resolving.mp (TypeContext.holds_two (holds_resolving.mpr ha) (holds_resolving.mpr hb))

end Region

/-! ## An application that fails -/

namespace Inference

variable {s s' : Inference}

/-- What is opened later stands for what the type stood for, and for what has been drawn by then. -/
theorem holds_opened {R : Region} {t : Inference} {y : Ty} (hbefore : s.Before t)
    (hy : R.Holds (s.types.resolve y.outline))
    (htypes : ∀ k, s.types.nextVar ≤ k → k < t.types.nextVar + y.scheme.bound.length →
      R.Holds (s.types.resolve (.var (s.types.numbered k))))
    (hterms : ∀ k, s.terms.nextVar ≤ k → k < t.terms.nextVar + y.toPolytype.body.arity →
      R.terms (s.types.findKind (.var (NameTable.numbered k)))) :
    R.Holds (s.types.resolve (t.opened y)) := by
  refine Region.holds_resolving.mp
    (Region.holds_openedBy (Region.holds_resolving.mpr hy) ?_ ?_ ?_)
  · rw [List.length_map, freshTypes, List.length_map, List.length_range']
  · intro m hm
    obtain ⟨v, hv, rfl⟩ := List.mem_map.mp hm
    obtain ⟨k, hk, hk', rfl⟩ := mem_freshTypes.mp hv
    have hnumbered : t.types.numbered k = s.types.numbered k := by
      rw [TypeContext.numbered, TypeContext.numbered, hbefore.types.number]
    rw [hnumbered]
    exact Region.holds_resolving.mpr (htypes k (Nat.le_trans hbefore.types.nextVar hk) hk')
  · intro u hu
    obtain ⟨v, hv, rfl⟩ := List.mem_map.mp hu
    obtain ⟨k, hk, hk', rfl⟩ := mem_freshTerms.mp hv
    exact hterms k (Nat.le_trans hbefore.terms hk) hk'

theorem fresh_draws {m : Monotype} (h : onTypes TypeContext.fresh s = .ok m s') :
    m = .var (s.types.numbered s.types.nextVar) ∧ s' = drawTypes 1 s := by
  rw [typeSupply.run s] at h
  split at h <;> cases h
  exact ⟨rfl, rfl⟩

theorem before_afterOpening (y : Ty) : s.Before (s.afterOpening y) :=
  ⟨⟨rfl, Nat.le_add_right _ _⟩, Nat.le_add_right _ _⟩

/-- The rule opens its premises one after the other, draws a variable for the result, unifies and
reports. -/
theorem app_failed {ev : Evaluator} {j₀ j₁ : Judgment} {status : Status}
    (h : app ev j₀ j₁ s = .ok (.failed status) s') :
    ∃ s₁ s₂ c, s₁ = s.afterOpening j₀.type ∧ s₂ = s₁.afterOpening j₁.type ∧
      c = { s₂.types with nextVar := s₂.types.nextVar + 1 } ∧
      TypeContext.unify ev.natives ev.fuel (s.opened j₀.type)
        (.arrow (s₁.opened j₁.type) (.var (s.types.numbered s₂.types.nextVar))) c =
          .ok status s'.types ∧
      s'.terms = s₂.terms ∧ s'.symbols = s.symbols ∧
      s'.reports = s.reports.push ⟨"App", status, [j₀, j₁], none⟩ := by
  unfold app at h
  obtain ⟨t₀, s₁, ht₀, h⟩ := Stateful.bind_eq_ok.mp h
  obtain ⟨t₁, s₂, ht₁, h⟩ := Stateful.bind_eq_ok.mp h
  obtain ⟨t₂, s₃, ht₂, h⟩ := Stateful.bind_eq_ok.mp h
  obtain ⟨status', s₄, hunify, h⟩ := Stateful.bind_eq_ok.mp h
  obtain ⟨rfl, rfl⟩ := instantiate_opens ht₀
  obtain ⟨rfl, rfl⟩ := instantiate_opens ht₁
  obtain ⟨rfl, rfl⟩ := fresh_draws ht₂
  obtain ⟨types, hrun, rfl⟩ := onTypes_eq_ok.mp hunify
  split at h
  · obtain ⟨_, s₅, -, h⟩ := Stateful.bind_eq_ok.mp h
    obtain ⟨_, s₆, -, h⟩ := Stateful.bind_eq_ok.mp h
    cases h
  · obtain ⟨_, s₅, hreport, h⟩ := Stateful.bind_eq_ok.mp h
    cases hreport
    cases h
    exact ⟨_, _, _, rfl, rfl, rfl, hrun, rfl, rfl, rfl⟩

/-- What an application that fails has bound is what its premises mention, and what it has drawn. -/
theorem app_failed_grows (hs : s.types.known.Acyclic) {ev : Evaluator} {j₀ j₁ : Judgment}
    {status : Status} (h : app ev j₀ j₁ s = .ok (.failed status) s') {R : Region}
    (hj₀ : R.Holds (s.types.resolve j₀.type.outline))
    (hj₁ : R.Holds (s.types.resolve j₁.type.outline))
    (htypes : ∀ k, s.types.nextVar ≤ k → k < s'.types.nextVar →
      R.Holds (s.types.resolve (.var (s.types.numbered k))))
    (hterms : ∀ k, s.terms.nextVar ≤ k → k < s'.terms.nextVar →
      R.terms (s.types.findKind (.var (NameTable.numbered k)))) :
    Grows R s.types.known s'.types.known := by
  obtain ⟨s₁, s₂, c, hs₁, hs₂, hc, hrun, hnames, -, -⟩ := app_failed h
  have hbefore : c.Before s'.types := by
    have hbefore := (TypeContext.Before.refl c).unify ev.natives ev.fuel (s.opened j₀.type)
      (.arrow (s₁.opened j₁.type) (.var (s.types.numbered s₂.types.nextVar)))
    rwa [hrun] at hbefore
  have hknown : c.known = s.types.known := by rw [hc, hs₂, hs₁]; rfl
  have hresolve : c.resolve = s.types.resolve := by rw [hc, hs₂, hs₁]; rfl
  subst hs₁ hs₂
  -- what is drawn for the premises and for the result lies between the two counters
  have hlast : s.types.nextVar + j₀.type.scheme.bound.length + j₁.type.scheme.bound.length + 1 ≤
      s'.types.nextVar := by
    rw [hc] at hbefore
    exact hbefore.nextVar
  have hlast' : s'.terms.nextVar = s.terms.nextVar + j₀.type.toPolytype.body.arity +
      j₁.type.toPolytype.body.arity := congrArg NameTable.nextVar hnames
  have hopened₀ : R.Holds (s.types.resolve (s.opened j₀.type)) :=
    holds_opened ⟨.refl _, Nat.le_refl _⟩ hj₀ (fun k hk hk' => htypes k hk (by omega))
      (fun k hk hk' => hterms k hk (by omega))
  have hopened₁ : R.Holds (s.types.resolve ((s.afterOpening j₀.type).opened j₁.type)) :=
    holds_opened (before_afterOpening _) hj₁
      (fun k hk hk' => htypes k hk (Nat.lt_of_lt_of_le hk' (Nat.le_of_succ_le hlast)))
      (fun k hk hk' => hterms k hk (Nat.lt_of_lt_of_eq hk' hlast'.symm))
  have hresult := htypes _ (by omega) hlast
  have hexpected := Region.holds_resolve_arrow hopened₁ hresult
  rw [← hresolve] at hopened₀ hexpected
  rw [← hknown] at hs ⊢
  rw [← endOf_ok status s'.types, ← hrun]
  exact TypeContext.unify_grows ev.fuel hs hopened₀ hexpected

/-- The types resolve to types with nothing in common. -/
def Unrelated (c : TypeContext) (y z : Ty) : Prop :=
  (c.resolve y.outline).Unshared (c.resolve z.outline)

/-- The type resolves to nothing that the variables drawn between two contexts stand for. -/
structure OffDrawn (s s' : Inference) (y : Ty) : Prop where
  types : ∀ k, s.types.nextVar ≤ k → k < s'.types.nextVar →
    Unrelated s.types y (.mono (.var (s.types.numbered k)))
  terms : ∀ k, s.terms.nextVar ≤ k → k < s'.terms.nextVar →
    ∀ w, s.types.findKind (.var (NameTable.numbered k)) = .var w →
      Term.var w ∉ (s.types.resolve y.outline).indexTerms

theorem app_failed_outside (hs : s.types.known.Acyclic) {ev : Evaluator} {j₀ j₁ : Judgment}
    {status : Status} (h : app ev j₀ j₁ s = .ok (.failed status) s') {y : Ty}
    (hj₀ : Unrelated s.types y j₀.type) (hj₁ : Unrelated s.types y j₁.type)
    (hdrawn : OffDrawn s s' y) : s'.types.resolve y.outline = s.types.resolve y.outline := by
  refine Grows.resolve_outside hs (app_failed_grows hs h (Region.holds_outside.mpr hj₀)
    (Region.holds_outside.mpr hj₁) (fun k hk hk' => ?_) (fun k hk hk' w hw => ?_))
  · have hunrelated := hdrawn.types k hk hk'
    rw [Unrelated, Ty.outline_mono] at hunrelated
    exact Region.holds_outside.mpr hunrelated
  · exact hw ▸ hdrawn.terms k hk hk' w hw

end Inference

/-! ## Clients that keep off the variables to come -/

namespace Dialogue

variable {d : Dialogue}

theorem Clean.resolve_numbered (hd : d.Clean) {k : Nat} (hk : d.state.types.nextVar ≤ k) :
    d.state.types.resolve (.var (d.state.types.numbered k)) = .var (d.state.types.numbered k) := by
  refine Classes.resolve_var_of_none (c := d.state.types.known) ?_
  by_contra hbound
  obtain ⟨m, hm⟩ := Option.ne_none_iff_exists'.mp hbound
  exact (hd.state.types.classes.type hm).1 k hk rfl

theorem Clean.findKind_numbered (hd : d.Clean) {k : Nat} (hk : d.state.terms.nextVar ≤ k) :
    d.state.types.findKind (.var (NameTable.numbered k)) = .var (NameTable.numbered k) := by
  refine ClassMap.find_of_next?_none (c := d.state.types.kinds) ?_
  by_contra hbound
  obtain ⟨t, ht⟩ := Option.ne_none_iff_exists'.mp hbound
  have hnamed : Term.NamedBy d.state.terms.Old (.var (NameTable.numbered k)) :=
    (hd.state.types.classes.kind ht).1
  exact Term.namedBy_var.mp hnamed k hk rfl

/-- No name has anything to do with the variables that are still to come. -/
theorem Clean.offDrawn (hd : d.Clean) {x : String} {i : Judgment}
    (hi : i ∈ d.state.symbols.bindings x) (s' : Inference) :
    Inference.OffDrawn d.state s' i.type := by
  have htype := (Region.holdsData_judgment.mp (hd.state.symbols x i hi)).2
  have hold : d.state.old.Holds (d.state.types.resolve i.type.outline) :=
    hd.state.types.classes.resolve hd.state.types.acyclic htype.outline
  constructor
  · intro k hk _
    rw [Inference.Unrelated, Ty.outline_mono, hd.resolve_numbered hk]
    refine ⟨fun v hv hv' => ?_, fun w _ hw => by simp at hw⟩
    rw [Monotype.mem_occurrences_var] at hv'
    exact hold.types v hv k hk hv'
  · intro k hk _ w hw hmem
    rw [hd.findKind_numbered hk] at hw
    have hnamed : Term.NamedBy d.state.terms.Old (.var w) := hold.terms _ hmem
    exact Term.namedBy_var.mp hnamed k hk (by rw [Term.var.inj hw])

end Dialogue

/-! ## Locality -/

open TypeContext (Reachable)
open Inference (Unrelated OffDrawn)

/-- **Unification has a local effect**, whatever status or fault it ends with. An application that fails
reports once, leaves Γ alone, and leaves alone what a name stands for that has nothing in common
with the premises and the variables drawn. In a dialogue it has nothing in common with the latter.
-/
theorem unification_local :
    (∀ (allowed : Operation → Prop) (c : TypeContext), Reachable allowed c →
      ∀ natives n a b m, (c.resolve m).Unshared (c.resolve a) →
        (c.resolve m).Unshared (c.resolve b) →
        (endOf (TypeContext.unify natives n a b c)).resolve m = c.resolve m) ∧
    (∀ (s₀ s : Inference) offset number, s₀.types = .startingAt offset number → Session s₀ s →
      ∀ ev j₀ j₁ status s', Inference.app ev j₀ j₁ s = .ok (.failed status) s' →
        s'.reports = s.reports.push ⟨"App", status, [j₀, j₁], none⟩ ∧ s'.symbols = s.symbols ∧
        ∀ x, ∀ i ∈ s.symbols.bindings x,
          Unrelated s.types i.type j₀.type → Unrelated s.types i.type j₁.type →
          OffDrawn s s' i.type →
          s'.types.resolve i.type.outline = s.types.resolve i.type.outline) ∧
    ∀ (d : Dialogue) a b, a < counterRange → b < counterRange →
      ReflTransGen Dialogue.Step (.start a b) d →
      ∀ ev j₀ j₁ status s', Inference.app ev j₀ j₁ d.state = .ok (.failed status) s' →
        ∀ x, ∀ i ∈ d.state.symbols.bindings x,
          Unrelated d.state.types i.type j₀.type → Unrelated d.state.types i.type j₁.type →
          s'.types.resolve i.type.outline = d.state.types.resolve i.type.outline := by
  refine ⟨?_, ?_, ?_⟩
  · intro allowed c hc natives n a b m ha hb
    exact TypeContext.unify_outside hc.acyclic natives n ha hb
  · intro s₀ s offset number hs₀ hs ev j₀ j₁ status s' hrun
    obtain ⟨_, _, _, -, -, -, -, -, hsymbols, hreports⟩ := Inference.app_failed hrun
    refine ⟨hreports, hsymbols, fun x i _ hj₀ hj₁ hdrawn => ?_⟩
    exact Inference.app_failed_outside (hs.acyclic hs₀) hrun hj₀ hj₁ hdrawn
  · intro d a b ha hb hd ev j₀ j₁ status s' hrun x i hi hj₀ hj₁
    obtain ⟨hclean, -⟩ := (Dialogue.clean_start ha hb).run hd
    exact Inference.app_failed_outside hclean.state.types.acyclic hrun hj₀ hj₁
      (hclean.offDrawn hi s')

/-- The status an application has failed with. -/
def Inference.failedStatus? : EStateM.Result Fault Inference Conclusion → Option Status
  | .ok (.failed status) _ => some status
  | _ => none

theorem Inference.eq_failed {r : EStateM.Result Fault Inference Conclusion} {status : Status}
    (h : failedStatus? r = some status) : r = .ok (.failed status) (endOf r) := by
  unfold failedStatus? at h
  split at h
  · cases h
    rfl
  · cases h

/-- Γ has `z : List b`. The pairs `a & Nat` and `Bool & Bool` agree in their first half, so that `a`
is bound when the application fails at the second one. -/
theorem unification_local_of_pairs :
    let ev : Evaluator := ⟨fun _ _ => .fail none, 20⟩
    let a : Monotype := .named "a"
    let bool : Monotype := .plain "Bool"
    let listed : Ty := .mono (.list (.named "b"))
    let d := (Dialogue.start 0 0).ask (.call (.add "z" listed))
    let operator : Judgment :=
      ⟨.const "f", .mono (.arrow (.pair a (.plain "Nat")) (.plain "Unit"))⟩
    let operand : Judgment := ⟨.const "p", .mono (.pair bool bool)⟩
    let s' := endOf (Inference.app ev operator operand d.state)
    Inference.app ev operator operand d.state = .ok (.failed .constantMismatch) s' ∧
      s'.types.resolve a = bool ∧
      s'.reports = #[⟨"App", .constantMismatch, [operator, operand], none⟩] ∧
      s'.symbols = d.state.symbols ∧
      s'.types.resolve listed.outline = d.state.types.resolve listed.outline := by
  intro ev a bool listed d operator operand s'
  have hstep : Dialogue.Step (.start 0 0) d := by
    refine .answer _ trivial fun x hx => .inl ?_
    obtain rfl := List.mem_singleton.mp hx
    refine Region.holdsTy_mono.mpr (Region.holds_app.mpr (List.forall_mem_singleton.mpr ?_))
    exact Region.holds_var.mpr (TypeContext.old_of_unmarked (by decide))
  have hsession : Session (.startingAt 0 0) d.state := .single ⟨.add "z" listed, rfl⟩
  have hrun : Inference.app ev operator operand d.state = .ok (.failed .constantMismatch) s' :=
    Inference.eq_failed (by decide +kernel)
  have hoperator : Unrelated d.state.types listed operator.type :=
    Monotype.unshared_of_no_index (by decide +kernel) (by decide +kernel)
  have hoperand : Unrelated d.state.types listed operand.type :=
    Monotype.unshared_of_no_index (by decide +kernel) (by decide +kernel)
  obtain ⟨-, happ, hdialogue⟩ := unification_local
  obtain ⟨hreports, hsymbols, -⟩ := happ _ _ 0 0 rfl hsession _ _ _ _ _ hrun
  have hlisted := hdialogue d 0 0 (by decide) (by decide) (.single hstep) _ _ _ _ _ hrun "z"
    ⟨.const "z", listed⟩ (List.mem_of_head? rfl) hoperator hoperand
  exact ⟨hrun, by decide +kernel, hreports, hsymbols, hlisted⟩

/-- A name and a type variable that is still to come, which the client has bound to `c → Nat`. An
application of premises without variables draws this variable for its result, fails, and has made
`Int → Nat` of it. -/
theorem app_failed_reaches_unrelated_name :
    let ev : Evaluator := ⟨fun _ _ => .fail none, 20⟩
    let reserved : Monotype := .var ⟨"$0", 0⟩
    let nat : Monotype := .plain "Nat"
    let int : Monotype := .plain "Int"
    let s₁ := (Call.add "y" (.mono reserved)).run (.startingAt 0 0)
    let s := (Call.onTypes (.unify ev reserved (.arrow (.named "c") nat))).run s₁
    let operator : Judgment :=
      ⟨.const "f", .mono (.arrow (.plain "A") (.arrow int (.plain "Bool")))⟩
    let operand : Judgment := ⟨.const "x", .mono (.plain "A")⟩
    let s' := endOf (Inference.app ev operator operand s)
    Session (.startingAt 0 0) s ∧
      Inference.app ev operator operand s = .ok (.failed .constantMismatch) s' ∧
      s.symbols.get? "y" = some ⟨.const "y", .mono reserved⟩ ∧
      Unrelated s.types (.mono reserved) operator.type ∧
      Unrelated s.types (.mono reserved) operand.type ∧
      s.types.resolve reserved = .arrow (.named "c") nat ∧
      s'.types.resolve reserved = .arrow int nat := by
  intro ev reserved nat int s₁ s operator operand s'
  have hsession : Session (.startingAt 0 0) s := (ReflTransGen.single ⟨_, rfl⟩).tail ⟨_, rfl⟩
  refine ⟨hsession, Inference.eq_failed (by decide +kernel), rfl, ?_, ?_, by decide +kernel,
    by decide +kernel⟩
  · exact Monotype.unshared_of_no_index (by decide +kernel) (by decide +kernel)
  · exact Monotype.unshared_of_no_index (by decide +kernel) (by decide +kernel)

end IndexedLambda
