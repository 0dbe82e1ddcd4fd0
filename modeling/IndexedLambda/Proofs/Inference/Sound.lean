import IndexedLambda.Proofs.Inference.Environment
/-!
# Inference is sound

What the rules conclude can be derived. A conclusion is read through a substitution that makes every
bound variable equal to its type (`TypeContext.Realizes`), and Γ through schemes that have at least
the instances which the symbol table then has (`SymbolTable.CoveredBy`). There is one lemma for each
rule, and an induction over the expression puts them together (`Expr.justified_of_infer`).

The rules for names, applications and abstractions only pass the substitution on. For a local
definition the bound expression is derived with another one: it sends the variables that are
generalised to new variables, and whatever Γ mentions where the given substitution sends it
(`Expr.Justified.generalized`). The substitution of the theorem is resolution in the last context.
-/

namespace IndexedLambda

/-! ## Substitutions that explain a context -/

namespace TypeContext

/-- A substitution by types without dependent instances that makes every bound variable equal to its
type. -/
structure Realizes (σ : TypeVariable → Monotype) (c : TypeContext) : Prop where
  indexFree : ∀ v, (σ v).isIndexFree = true
  models : (Reading.ofSubst σ).Models id c.known

namespace Realizes

variable {σ : TypeVariable → Monotype} {c d : TypeContext}

/-- What explains a context explains those it has grown from. -/
theorem of_grows {R : Region} (h : Realizes σ d) (hgrows : Grows R c.known d.known) :
    Realizes σ c := ⟨h.indexFree, hgrows.models h.models⟩

theorem subst_find (h : Realizes σ c) (hc : Plain c) (m : Monotype) :
    (c.find m).subst σ = m.subst σ := by
  have hfind := h.models.onType_find hc.acyclic m
  rw [Reading.ofSubst_onType, Reading.ofSubst_onType] at hfind
  exact hfind

theorem subst_resolve (h : Realizes σ c) (hc : Plain c) (m : Monotype) :
    (c.resolve m).subst σ = m.subst σ := by
  have hresolve := h.models.onType_resolve congruent_id hc.acyclic m
  rw [Reading.ofSubst_onType, Reading.ofSubst_onType] at hresolve
  exact hresolve

/-- Unified types become alike. -/
theorem alike (h : Realizes σ d) (hc : Plain c) {natives : InstructionSet} {n : Nat} {a b : Monotype}
    (ha : a.isIndexFree = true) (hb : b.isIndexFree = true)
    (hrun : unify natives n a b c = .ok .ok d) : (a.subst σ).Alike (b.subst σ) := by
  have hshape : SameShape natives ((Reading.ofSubst σ).onType a) ((Reading.ofSubst σ).onType b) :=
    (unify_ensures n a b c d hc.acyclic hrun).2 _ h.models
  rw [Reading.ofSubst_onType, Reading.ofSubst_onType] at hshape
  apply hshape.alike
  · exact Monotype.isIndexFree_subst.mpr ⟨ha, fun v _ => h.indexFree v⟩
  · exact Monotype.isIndexFree_subst.mpr ⟨hb, fun v _ => h.indexFree v⟩

/-- Resolution, with anything after it. -/
theorem of_resolve (hc : Plain c) (hσ : ∀ v, (σ v).isIndexFree = true) :
    Realizes (fun v => (c.resolve (.var v)).subst σ) c where
  indexFree v := Monotype.isIndexFree_subst.mpr
    ⟨throughout_resolve Monotype.pervasive_isIndexFree hc.indexFree.types rfl, fun w _ => hσ w⟩
  models := by
    refine ⟨fun {v m} hv => ?_, fun {v t} hv => ?_⟩
    · have hresolve : c.resolve (.var v) = c.resolve m := hc.acyclic.resolve_var_of_some hv
      rw [Reading.ofSubst_onType, ← Monotype.subst_subst,
        ← resolve_of_isIndexFree (hc.indexFree.types _ _ hv)]
      show (c.resolve (.var v)).subst σ = (c.resolve m).subst σ
      rw [hresolve]
    · rw [hc.indexFree.kinds] at hv
      cases hv

/-- Resolution explains its own context. -/
theorem resolve (hc : Plain c) : Realizes (fun v => c.resolve (.var v)) c := by
  have h : Realizes (fun v => (c.resolve (.var v)).subst .var) c := of_resolve hc fun _ => rfl
  have hid : (fun v => (c.resolve (.var v)).subst .var) = fun v => c.resolve (.var v) :=
    funext fun v => Monotype.subst_eq_self fun _ _ => rfl
  rw [hid] at h
  exact h

end Realizes

end TypeContext

/-! ## Symbol tables and schemes -/

theorem Scheme.Covers.congr {q p : Scheme} {σ τ : TypeVariable → Monotype} (h : q.Covers p σ)
    (hστ : ∀ v, p.Free v → σ v = τ v) : q.Covers p τ :=
  fun θ hθ hfree => h θ hθ fun v hv => (hfree v hv).trans (hστ v hv).symm

theorem Scheme.covers_mono (v : TypeVariable) (σ : TypeVariable → Monotype) :
    Scheme.Covers ⟨[], σ v⟩ (Ty.mono (.var v)).scheme σ := by
  intro θ hθ hfree
  have hv : θ v = σ v := hfree v ⟨(Monotype.mem_occurrences_var v).mpr rfl, List.not_mem_nil⟩
  refine ⟨.var, fun _ => rfl, ?_⟩
  show θ v = (σ v).subst _
  rw [hv]
  exact (Monotype.subst_eq_self fun w _ => if_neg List.not_mem_nil).symm

namespace SymbolTable

/-- Every visible name has a scheme with at least the instances that the substitution gives its
type. -/
def CoveredBy (table : SymbolTable) (Γ : List (String × Scheme)) (σ : TypeVariable → Monotype) :
    Prop :=
  ∀ x j, table.get? x = some j → ∃ q, Γ.lookup x = some q ∧ q.Covers j.type.scheme σ

variable {table table' : SymbolTable} {Γ : List (String × Scheme)} {σ : TypeVariable → Monotype}

theorem get?_congr (h : ∀ x, table'.bindings x = table.bindings x) (x : String) :
    table'.get? x = table.get? x := by
  unfold get?
  rw [h x]

theorem mem_bindings_of_get? {x : String} {j : Judgment} (h : table.get? x = some j) :
    j ∈ table.bindings x := List.mem_of_mem_head? h

/-- What a name is bound to and then unbound again leaves no trace. -/
theorem bindings_remove_of_add {x : String} {y : Ty}
    (h : ∀ z, table'.bindings z = (table.add x y).bindings z) (z : String) :
    (table'.remove x).bindings z = table.bindings z := by
  rw [bindings_remove, h, h, bindings_add, bindings_add]
  by_cases hz : x = z
  · subst hz
    simp
  · simp [hz]

namespace CoveredBy

theorem of_bindings (h : table.CoveredBy Γ σ) (heq : ∀ x, table'.bindings x = table.bindings x) :
    table'.CoveredBy Γ σ := by
  intro x j hj
  rw [get?_congr heq] at hj
  exact h x j hj

theorem add (h : table.CoveredBy Γ σ) {x : String} {y : Ty} {q : Scheme}
    (hq : q.Covers y.scheme σ) : (table.add x y).CoveredBy ((x, q) :: Γ) σ := by
  intro z j hj
  rw [get?, bindings_add] at hj
  by_cases hz : x = z
  · subst hz
    rw [if_pos rfl] at hj
    cases hj
    exact ⟨q, by simp, hq⟩
  · rw [if_neg hz] at hj
    obtain ⟨p, hp, hcovers⟩ := h z j hj
    refine ⟨p, ?_, hcovers⟩
    rw [List.lookup_cons, beq_false_of_ne (Ne.symm hz)]
    exact hp

end CoveredBy

end SymbolTable

/-! ## The rules -/

namespace Inference

variable {s s' : Inference}

theorem Opens.ordinary {p : Scheme} {m : Monotype} (h : Opens p m) (hp : p.type.Ordinary) :
    m.Ordinary := by
  obtain ⟨τ, hbound, hother, rfl⟩ := h
  refine ⟨Monotype.isIndexFree_subst.mpr ⟨hp.indexFree, fun _ _ => rfl⟩, fun w hw => ?_⟩
  obtain ⟨v, hv, hwv⟩ := Monotype.mem_occurrences_subst.mp hw
  rw [(Monotype.mem_occurrences_var (τ v)).mp hwv]
  by_cases hmem : v ∈ p.bound
  · exact hbound v hmem
  · rw [hother v hmem]
    exact hp.named v hv

/-- An opened scheme is read as an instance of every scheme that covers it. -/
theorem Opens.instance_subst {p q : Scheme} {m : Monotype} {σ : TypeVariable → Monotype}
    (h : Opens p m) (hq : q.Covers p σ) (hσ : ∀ v, (σ v).isIndexFree = true) :
    q.Instance (m.subst σ) := by
  obtain ⟨τ, -, hother, rfl⟩ := h
  rw [Monotype.subst_subst]
  exact hq (fun v => σ (τ v)) (fun v => hσ (τ v)) fun v hv => by rw [hother v hv.2]

theorem Tidy.of_bindings (h : s.Tidy) (htypes : s'.types.Tidy)
    (hbindings : ∀ x, s'.symbols.bindings x = s.symbols.bindings x) : s'.Tidy := by
  refine ⟨htypes, fun x j hj => ?_⟩
  rw [hbindings] at hj
  exact h.symbols x j hj

theorem Tidy.add (h : s.Tidy) {x : String} {y : Ty} (hy : y.scheme.type.Ordinary)
    (hknown : s'.types.known = s.types.known) (hsymbols : s'.symbols = s.symbols.add x y) :
    s'.Tidy := by
  refine ⟨h.types.of_known hknown, fun z j hj => ?_⟩
  rw [hsymbols, SymbolTable.bindings_add] at hj
  split at hj
  · rcases List.mem_cons.mp hj with rfl | hj
    · exact hy
    · exact h.symbols x j hj
  · exact h.symbols z j hj

/-- Binds names in Γ, one after the other. -/
def addAll (entries : List (String × Ty)) : InferM Unit :=
  entries.forM fun entry => add entry.1 entry.2

theorem tidy_startingAt (typeOffset termOffset : Nat) : (startingAt typeOffset termOffset).Tidy := by
  refine ⟨TypeContext.tidy_startingAt typeOffset 0, fun x j hj => ?_⟩
  rw [startingAt, SymbolTable.bindings_empty] at hj
  cases hj

/-- After names have been bound to ordinary types, Γ has the last type of each name. -/
theorem addAll_spec {entries : List (String × Ty)} {u : Unit}
    (hentries : ∀ entry ∈ entries, entry.2.scheme.type.Ordinary) (hs : s.Tidy)
    (h : addAll entries s = .ok u s') : s'.Tidy ∧
      ∀ (σ : TypeVariable → Monotype) (Γ : List (String × Scheme)), s.symbols.CoveredBy Γ σ →
        s'.symbols.CoveredBy
          ((entries.reverse.map fun entry => (entry.1, entry.2.scheme.subst [] σ)) ++ Γ) σ := by
  induction entries generalizing s with
  | nil => cases h; exact ⟨hs, fun σ Γ hΓ => hΓ⟩
  | cons entry entries ih =>
      rw [List.forall_mem_cons] at hentries
      obtain ⟨u₁, s₁, hadd, hrest⟩ := Stateful.bind_eq_ok.mp h
      cases hadd
      have hs₁ : Tidy { s with symbols := s.symbols.add entry.1 entry.2 } :=
        hs.add hentries.1 rfl rfl
      obtain ⟨htidy, hcovered⟩ := ih hentries.2 hs₁ hrest
      refine ⟨htidy, fun σ Γ hΓ => ?_⟩
      rw [List.reverse_cons, List.map_append, List.append_assoc]
      exact hcovered σ _ (hΓ.add (Scheme.covers_subst [] σ entry.2.scheme))

end Inference

namespace Expr

/-- What running the rules for an expression has to achieve between two contexts. Γ is left as it
was, and in whatever way the last context is explained, the conclusion can be derived. -/
structure Justified (s s' : Inference) (e : Expr) (m : Monotype) : Prop where
  tidy : s'.Tidy
  usable : s'.types.Usable m
  grows : Grows .named s.types.known s'.types.known
  bindings : ∀ x, s'.symbols.bindings x = s.symbols.bindings x
  typed : ∀ Γ σ, s'.types.Realizes σ → s.symbols.CoveredBy Γ σ → Typed Γ e (m.subst σ)

/-- The variables that occur in a typing context. -/
def mentioned (Γ : List (String × Scheme)) : List TypeVariable :=
  Γ.flatMap fun entry => entry.2.type.occurrences

theorem not_free_of_not_mentioned {Γ : List (String × Scheme)} {v : TypeVariable}
    (hv : v ∉ mentioned Γ) : ∀ entry ∈ Γ, ¬entry.2.Free v :=
  fun entry hentry hfree => hv (List.mem_flatMap.mpr ⟨entry, hentry, hfree.1⟩)

namespace Justified

variable {ev : Evaluator} {s s₁ s₂ s₃ s' : Inference} {m m₀ m₁ : Monotype} {j j₀ j₁ : Judgment}
  {x : String} {bound body : Expr}

theorem name (hs : s.Tidy) (h : Inference.var x s = .ok (.concluded j) s') :
    ∃ m, j.type = .mono m ∧ Justified s s' (.name x) m := by
  obtain ⟨entry, m, s₁, hentry, hopen, hj, hsymbols, htypes⟩ := Inference.var_spec h
  have hentry' : entry.type.scheme.type.Ordinary :=
    hs.symbols x entry (SymbolTable.mem_bindings_of_get? hentry)
  obtain ⟨hm, hsame⟩ := Inference.instantiate_spec hentry'.indexFree hopen
  have hknown : s'.types.known = s.types.known := by rw [htypes, hsame.known]
  have hbindings : ∀ z, s'.symbols.bindings z = s.symbols.bindings z := by
    intro z
    rw [hsymbols, hsame.symbols]
  have htidy : s'.Tidy := hs.of_bindings (hs.types.of_known hknown) hbindings
  refine ⟨m, hj, htidy, htidy.types.usable (hm.ordinary hentry'), hknown ▸ .refl, hbindings, ?_⟩
  intro Γ σ hσ hΓ
  obtain ⟨q, hq, hcovers⟩ := hΓ x entry hentry
  exact .name hq (hm.instance_subst hcovers hσ.indexFree)

theorem app {operator operand : Expr} (h₀ : Justified s s₁ operator m₀)
    (h₁ : Justified s₁ s₂ operand m₁) (hj₀ : j₀.type = .mono m₀) (hj₁ : j₁.type = .mono m₁)
    (h : Inference.app ev j₀ j₁ s₂ = .ok (.concluded j) s') :
    ∃ m, j.type = .mono m ∧ Justified s s' (.app operator operand) m := by
  obtain ⟨v, s₃, hv, hsame, hunify, hj, hsymbols⟩ := Inference.app_spec hj₀ hj₁ h
  have htidy₃ : s₃.types.Tidy := h₁.tidy.types.of_known hsame.known
  -- both sides of the equation are usable in the context in which it is solved
  have hm₀ : s₃.types.Usable m₀ :=
    h₀.usable.grows h₀.tidy.types.toPlain (hsame.known ▸ h₁.grows)
  have hm₁ : s₃.types.Usable m₁ := h₁.usable.grows h₁.tidy.types.toPlain (hsame.known ▸ .refl)
  have hvar : s₃.types.Usable (.var v) := htidy₃.usable (Monotype.ordinary_var hv)
  obtain ⟨htidy, hgrows⟩ := htidy₃.unify hm₀ (hm₁.arrow hvar) hunify
  have hgrows₂ : Grows .named s₂.types.known s'.types.known := hsame.known ▸ hgrows
  have hbindings : ∀ z, s'.symbols.bindings z = s.symbols.bindings z := by
    intro z
    rw [hsymbols, h₁.bindings, h₀.bindings]
  refine ⟨_, hj, ?_, ?_, ?_, hbindings, ?_⟩
  · exact h₁.tidy.of_bindings htidy fun z => by rw [hsymbols]
  · exact (hvar.grows htidy₃.toPlain hgrows).find htidy.toPlain
  · exact h₀.grows.trans (h₁.grows.trans hgrows₂)
  · intro Γ σ hσ hΓ
    have hσ₂ : s₂.types.Realizes σ := hσ.of_grows hgrows₂
    have hσ₁ : s₁.types.Realizes σ := hσ₂.of_grows h₁.grows
    have halike : (m₀.subst σ).Alike (.arrow (m₁.subst σ) (σ v)) := by
      have h := hσ.alike htidy₃.toPlain hm₀.indexFree (hm₁.arrow hvar).indexFree hunify
      rw [Monotype.subst_arrow] at h
      exact h
    rw [hσ.subst_find htidy.toPlain]
    exact .app (.conv (h₀.typed Γ σ hσ₁ hΓ) halike)
      (h₁.typed Γ σ hσ₂ (hΓ.of_bindings h₀.bindings))

/-- An abstraction opens Γ, which the discharge puts back. -/
theorem lam (hs : s.Tidy) {premise : OpenAbs} (habs : Inference.abs x s = .ok premise s₁)
    (h : Justified s₁ s₂ body m) (hj : j.type = .mono m)
    (hdischarge : Inference.dischargeAbs premise j s₂ = .ok (.concluded j₁) s') :
    ∃ n, j₁.type = .mono n ∧ Justified s s' (.lam x body) n := by
  obtain ⟨v, hv, rfl, hsymbols₁, hknown₁⟩ := Inference.abs_spec habs
  obtain ⟨⟨term, hk⟩, hsymbols, htypes⟩ := Inference.dischargeAbs_spec hj hdischarge
  cases hk
  have hbindings : ∀ z, s'.symbols.bindings z = s.symbols.bindings z := by
    intro z
    rw [hsymbols]
    exact SymbolTable.bindings_remove_of_add (fun z => by rw [h.bindings, hsymbols₁]) z
  have htidy : s'.types.Tidy := htypes ▸ h.tidy.types
  refine ⟨_, rfl, hs.of_bindings htidy hbindings, ?_, ?_, hbindings, ?_⟩
  · exact (htidy.usable (Monotype.ordinary_var hv)).arrow (htypes ▸ h.usable)
  · rw [htypes, ← hknown₁]
    exact h.grows
  · intro Γ σ hσ hΓ
    rw [Monotype.subst_arrow]
    apply Typed.lam (hσ.indexFree v)
    apply h.typed
    · rw [← htypes]
      exact hσ
    · rw [hsymbols₁]
      exact hΓ.add (Scheme.covers_mono v σ)

/-- The bound expression of a local definition has the generalised type, whatever the bound variables
are called. -/
theorem generalized (h : Justified s s₁ bound m) {Γ : List (String × Scheme)}
    {σ : TypeVariable → Monotype} (hσ : s₁.types.Realizes σ) (hΓ : s.symbols.CoveredBy Γ σ)
    (avoid : List TypeVariable) :
    Typed Γ bound ((s₁.generalize m).toType.scheme.subst avoid σ).type := by
  have hplain : TypeContext.Plain s₁.types := h.tidy.types.toPlain
  have hscheme := Inference.generalize_scheme (h.usable.resolve hplain)
  generalize (s₁.generalize m).toType.scheme = p at hscheme ⊢
  -- generalised variables get their new names, and the rest is read as before
  have hrealizes : s₁.types.Realizes fun v =>
      (s₁.types.resolve (.var v)).subst (p.substVar avoid σ) := by
    refine .of_resolve hplain fun v => ?_
    unfold Scheme.substVar
    split
    · rfl
    · exact hσ.indexFree v
  -- whatever Γ mentions has not been generalised, so that nothing changes for Γ
  have hagree : ∀ x j, s.symbols.get? x = some j → ∀ v, j.type.scheme.Free v →
      σ v = (s₁.types.resolve (.var v)).subst (p.substVar avoid σ) := by
    intro x j hj v hv
    have hmem : j ∈ s₁.symbols.bindings x := by
      rw [h.bindings]
      exact SymbolTable.mem_bindings_of_get? hj
    have hfree : ∀ w ∈ (s₁.types.resolve (.var v)).occurrences, w ∉ p.bound := by
      intro w hw hbound
      rw [hscheme] at hbound
      have henv : w ∈ s₁.environment := h.tidy.mem_environment hmem hv hw
      simpa [henv] using (List.mem_filter.mp hbound).2
    calc σ v = (s₁.types.resolve (.var v)).subst σ := (hσ.subst_resolve hplain (.var v)).symm
      _ = (s₁.types.resolve (.var v)).subst (p.substVar avoid σ) :=
        Monotype.subst_congr fun w hw => (if_neg (hfree w hw)).symm
  have htyped := h.typed Γ _ hrealizes fun x j hj => by
    obtain ⟨q, hq, hcovers⟩ := hΓ x j hj
    exact ⟨q, hq, hcovers.congr (hagree x j hj)⟩
  rw [← Monotype.subst_subst, ← TypeContext.resolve_of_isIndexFree h.usable.indexFree] at htyped
  rw [hscheme] at htyped ⊢
  exact htyped

/-- The context in which the body of a local definition is inferred is tidy again. -/
theorem tidy_letIn {premise : OpenLet} (h : Justified s s₁ bound m) (hj : j.type = .mono m)
    (hlet : Inference.letIn x j s₁ = .ok premise s₂) : s₂.Tidy := by
  obtain ⟨-, hsymbols, htypes⟩ := Inference.letIn_spec hj hlet
  have hresolved := h.usable.resolve h.tidy.types.toPlain
  refine h.tidy.add ?_ (by rw [htypes]) hsymbols
  rw [Inference.generalize_scheme hresolved]
  exact hresolved

theorem letIn (hs : s.Tidy) {premise : OpenLet} (h₀ : Justified s s₁ bound m₀)
    (hj₀ : j₀.type = .mono m₀) (hlet : Inference.letIn x j₀ s₁ = .ok premise s₂)
    (h₁ : Justified s₂ s₃ body m₁) (hj₁ : j₁.type = .mono m₁)
    (hdischarge : Inference.dischargeLet premise j₁ s₃ = .ok (.concluded j) s') :
    ∃ n, j.type = .mono n ∧ Justified s s' (.letIn x bound body) n := by
  obtain ⟨rfl, hsymbols₂, htypes₂⟩ := Inference.letIn_spec hj₀ hlet
  obtain ⟨⟨term, hk⟩, hsymbols, htypes⟩ := Inference.dischargeLet_spec hdischarge
  cases hk
  have hbindings : ∀ z, s'.symbols.bindings z = s.symbols.bindings z := by
    intro z
    rw [hsymbols, ← h₀.bindings]
    exact SymbolTable.bindings_remove_of_add (fun z => by rw [h₁.bindings, hsymbols₂]) z
  have hgrows : Grows .named s₁.types.known s'.types.known := by
    rw [htypes, ← htypes₂]
    exact h₁.grows
  refine ⟨m₁, hj₁, hs.of_bindings (htypes ▸ h₁.tidy.types) hbindings, htypes ▸ h₁.usable,
    h₀.grows.trans hgrows, hbindings, ?_⟩
  intro Γ σ hσ hΓ
  -- the bound variables are renamed away from Γ, which makes them ready to be bound
  have hbound := h₀.generalized (hσ.of_grows hgrows) hΓ (mentioned Γ)
  have hcovers := Scheme.covers_subst (mentioned Γ) σ (s₁.generalize m₀).toType.scheme
  have hfresh : ∀ v ∈ ((s₁.generalize m₀).toType.scheme.subst (mentioned Γ) σ).bound,
      ∀ entry ∈ Γ, ¬entry.2.Free v :=
    fun v hv => not_free_of_not_mentioned (Scheme.not_mem_avoid hv)
  refine .letIn _ hbound hfresh ?_
  apply h₁.typed
  · rw [← htypes]
    exact hσ
  · rw [hsymbols₂]
    exact (hΓ.of_bindings h₀.bindings).add hcovers

end Justified

/-- Every run of the rules is justified. -/
theorem justified_of_infer (ev : Evaluator) (e : Expr) {s s' : Inference} {j : Judgment}
    (hs : s.Tidy) (h : e.infer ev s = .ok (.concluded j) s') :
    ∃ m, j.type = .mono m ∧ Justified s s' e m := by
  -- every rule leaves another context to the next one, so the hypotheses are for all contexts
  induction e generalizing s s' j with
  | name x => exact Justified.name hs h
  | app operator operand ih₀ ih₁ =>
      obtain ⟨k₀, s₁, hrun₀, h⟩ := Stateful.bind_eq_ok.mp h
      cases k₀ with
      | failed status => cases h
      | concluded j₀ =>
          obtain ⟨m₀, hj₀, h₀⟩ := ih₀ hs hrun₀
          obtain ⟨k₁, s₂, hrun₁, h⟩ := Stateful.bind_eq_ok.mp h
          cases k₁ with
          | failed status => cases h
          | concluded j₁ =>
              obtain ⟨m₁, hj₁, h₁⟩ := ih₁ h₀.tidy hrun₁
              exact h₀.app h₁ hj₀ hj₁ h
  | lam x body ih =>
      obtain ⟨premise, s₁, habs, h⟩ := Stateful.bind_eq_ok.mp h
      obtain ⟨k₀, s₂, hrun₀, h⟩ := Stateful.bind_eq_ok.mp h
      cases k₀ with
      | failed status => cases h
      | concluded j₀ =>
          obtain ⟨v, hv, -, hsymbols, hknown⟩ := Inference.abs_spec habs
          have hvar : (Ty.mono (.var v)).scheme.type.Ordinary := Monotype.ordinary_var hv
          obtain ⟨m₀, hj₀, h₀⟩ := ih (hs.add hvar hknown hsymbols) hrun₀
          exact Justified.lam hs habs h₀ hj₀ h
  | letIn x bound body ih₀ ih₁ =>
      obtain ⟨k₀, s₁, hrun₀, h⟩ := Stateful.bind_eq_ok.mp h
      cases k₀ with
      | failed status => cases h
      | concluded j₀ =>
          obtain ⟨m₀, hj₀, h₀⟩ := ih₀ hs hrun₀
          obtain ⟨premise, s₂, hlet, h⟩ := Stateful.bind_eq_ok.mp h
          obtain ⟨k₁, s₃, hrun₁, h⟩ := Stateful.bind_eq_ok.mp h
          cases k₁ with
          | failed status => cases h
          | concluded j₁ =>
              obtain ⟨m₁, hj₁, h₁⟩ := ih₁ (h₀.tidy_letIn hj₀ hlet) hrun₁
              exact Justified.letIn hs h₀ hj₀ hlet h₁ hj₁ h

/-- **The rules are sound.** What a run concludes can be derived, in the declarative system, from Γ as
it was at the start. It starts with names that have types without dependent instances and without
variables called `_`. Γ and the type of the conclusion are read as the last context resolves them. -/
theorem infer_sound {ev : Evaluator} {e : Expr} {entries : List (String × Ty)}
    (hentries : ∀ entry ∈ entries, entry.2.scheme.type.Ordinary) {typeOffset termOffset : Nat}
    {j : Judgment} {s : Inference}
    (hrun : (do Inference.addAll entries; e.infer ev) (.startingAt typeOffset termOffset) =
      .ok (.concluded j) s) :
    ∃ m, j.type = .mono m ∧
      Typed (entries.reverse.map fun entry => (entry.1, entry.2.scheme.resolve s.types)) e
        (s.types.resolve m) := by
  obtain ⟨u, s₀, hadd, hinfer⟩ := Stateful.bind_eq_ok.mp hrun
  obtain ⟨htidy, hcovered⟩ :=
    Inference.addAll_spec hentries (Inference.tidy_startingAt typeOffset termOffset) hadd
  obtain ⟨m, hj, h⟩ := justified_of_infer ev e htidy hinfer
  refine ⟨m, hj, ?_⟩
  -- before anything was added, there was nothing to cover
  have hempty : (Inference.startingAt typeOffset termOffset).symbols.CoveredBy []
      fun v => s.types.resolve (.var v) := by
    intro x k hk
    rw [Inference.startingAt, SymbolTable.get?, SymbolTable.bindings_empty] at hk
    cases hk
  have hΓ := hcovered _ [] hempty
  rw [List.append_nil] at hΓ
  -- to resolve a type is to read it through what its variables resolve to
  rw [TypeContext.resolve_of_isIndexFree h.usable.indexFree]
  exact h.typed _ _ (.resolve h.tidy.types.toPlain) hΓ

/-- `let i = λx. x in (i f) (i k)` uses the type of `i` twice, and finds out that of `k`. -/
theorem infer_sound_of_let :
    let nat : Monotype := .const (.plain "Nat")
    let a : Monotype := .var ⟨"a", 0⟩
    let entries : List (String × Ty) := [("f", .mono (.arrow nat nat)), ("k", .mono a)]
    let e : Expr := .letIn "i" (.lam "x" (.name "x"))
      (.app (.app (.name "i") (.name "f")) (.app (.name "i") (.name "k")))
    let run : InferM Conclusion := do
      Inference.addAll entries
      e.infer ⟨fun _ _ => .fail none, 20⟩
    (∀ entry ∈ entries, entry.2.scheme.type.Ordinary) ∧
    ∃ j s, run (.startingAt 0 0) = .ok (.concluded j) s ∧
      s.types.resolve a = nat ∧
      Typed [("k", ⟨[], nat⟩), ("f", ⟨[], .arrow nat nat⟩)] e nat := by
  intro nat a entries e run
  have hentries : ∀ entry ∈ entries, entry.2.scheme.type.Ordinary := by
    intro entry hentry
    rcases List.mem_pair.mp hentry with rfl | rfl
    · exact ⟨rfl, by decide⟩
    · exact Monotype.ordinary_var (by decide)
  refine ⟨hentries, ?_⟩
  have hcheck : EStateM.run' (do
      let k ← run
      let s ← get
      return (s.types.resolve a, k.judgment?.bind fun j => j.type.asMonotype.map s.types.resolve))
      (Inference.startingAt 0 0) = some (nat, some nat) := by decide +kernel
  obtain ⟨k, s, hrun, hrest⟩ := Stateful.bind_eq_ok.mp (eq_ok_of_run' hcheck)
  obtain ⟨ha, hk⟩ := Prod.mk.inj (EStateM.Result.ok.inj hrest).1
  cases k with
  | failed status => cases hk
  | concluded j =>
      obtain ⟨m, hm, htyped⟩ := infer_sound hentries hrun
      have hm' : s.types.resolve m = nat := by
        simpa [Conclusion.judgment?, hm, Ty.asMonotype, Ty.mono] using hk
      have hΓ : (entries.reverse.map fun entry => (entry.1, entry.2.scheme.resolve s.types)) =
          [("k", ⟨[], s.types.resolve a⟩), ("f", ⟨[], .arrow nat nat⟩)] := rfl
      rw [hΓ, ha, hm'] at htyped
      exact ⟨j, s, hrun, ha, htyped⟩

end Expr

end IndexedLambda
