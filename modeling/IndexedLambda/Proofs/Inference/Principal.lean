import IndexedLambda.Proofs.Inference.Explanation
import IndexedLambda.Proofs.Inference.Progress
/-!
# Inference finds principal types

If an expression has a type, then the rules come to a conclusion, and the type is an instance of the
one that they conclude. The proof follows a derivation with a substitution that explains the
context. There is one lemma for each rule: the rule goes through, and the substitution extends to
the variables that it has drawn, so that the conclusion becomes the type of the derivation
(`Expr.Solved`). For an application the extended substitution is a solution of the equation, and
unification loses none.

The rules are followed from one expression to the next by induction over the derivation
(`Expr.Typed.yields`).
-/

namespace IndexedLambda

namespace Expr

open Inference (Yields)

/-- The fault of a name that cannot be cut, where not everything can be written. -/
def Unwritten (written : Prop) (f : Fault) : Prop := f.IsCut ∧ ¬written

/-- What the rules for an expression have to achieve between two contexts, when a substitution
explains the first one. It extends to a solution of the second one that makes the conclusion the
given type. The conclusion can be written if Γ can be. -/
structure Solved (written : Prop) (σ : TypeVariable → Monotype) (s s' : Inference) (m τ : Monotype) :
    Prop where
  before : s.types.Before s'.types
  classes : s'.types.known.Within s'.types.Old
  old : ∀ v ∈ m.occurrences, s'.types.Old v
  wellSplit : written → m.isWellSplit = true
  solution : ∃ σ', (∀ v, s.types.Old v → σ' v = σ v) ∧ s'.types.Solves σ' ∧ (m.subst σ').Alike τ

namespace Solved

variable {written : Prop} {ev : Evaluator} {natives : InstructionSet} {σ σ₁ : TypeVariable → Monotype}
  {s s₁ s' : Inference} {e : Expr} {m m₀ m₁ τ a b : Monotype} {Γ : List (String × Scheme)}
  {term : Term} {x : String}

/-- Steps that extend the substitution come before. -/
theorem of_later (h : Solved written σ₁ s₁ s' m τ) (hbefore : s.types.Before s₁.types)
    (hagree : ∀ v, s.types.Old v → σ₁ v = σ v) : Solved written σ s s' m τ := by
  obtain ⟨σ', hagree', hsolves, halike⟩ := h.solution
  refine ⟨hbefore.trans h.before, h.classes, h.old, h.wellSplit, σ', fun v hv => ?_, hsolves, halike⟩
  rw [hagree' v (hbefore.old hv), hagree v hv]

/-- Only the type context counts. -/
theorem of_types (h : Solved written σ s s₁ m τ) (htypes : s'.types = s₁.types) :
    Solved written σ s s' m τ :=
  ⟨htypes ▸ h.before, htypes ▸ h.classes, htypes ▸ h.old, h.wellSplit, htypes ▸ h.solution⟩

/-- After an expression the next one can be inferred, and the extended substitution explains the
context. -/
theorem resume (h : Solved written σ s s' m τ) (hs : s.Ready written) (hσ : s.Explains σ Γ)
    (hrun : e.infer ev s = .ok (.concluded ⟨term, .mono m⟩) s') :
    s'.Ready written ∧ s'.types.Usable m ∧ ∃ σ', s'.Explains σ' Γ ∧
      (∀ v, s.types.Old v → σ' v = σ v) ∧ (m.subst σ').Alike τ := by
  obtain ⟨n, hn, hjustified⟩ := justified_of_infer ev e hs.tidy hrun
  cases hn
  obtain ⟨σ', hagree, hsolves, halike⟩ := h.solution
  have hbindings := hjustified.bindings
  have hkept := (e.infer_kept TypeContext.legible_lasting ev).of_ok hrun ⟨hs.legible, hs.untraced⟩
  refine ⟨⟨hjustified.tidy, hs.faithful.of_bindings hbindings, ⟨h.classes, fun x j hj v hv => ?_⟩,
    hkept.tracing, hkept.types, fun hwritten x j hj => ?_⟩,
    hjustified.usable, σ', hσ.congr hs.numbered hagree hsolves hbindings, hagree, halike⟩
  · rw [hbindings] at hj
    exact h.before.old (hs.numbered.symbols x j hj v hv)
  · rw [hbindings] at hj
    exact hs.wellSplit hwritten x j hj

/-- A name has the given type if its fresh variables mean what the derivation has put in for the
bound ones. -/
theorem name (hs : s.Ready written) (hσ : s.Explains σ Γ) {q : Scheme} (hx : Γ.lookup x = some q)
    (hq : q.Instance τ) : Yields (Unwritten written) (fun _ => Inference.var x)
      (fun k s' => ∃ m, k.Has m ∧ Solved written σ s s' m τ) s := by
  obtain ⟨entry, hentry, hgeneralizes⟩ := hσ.visible x q hx
  obtain ⟨θ, hθ, halike⟩ := hgeneralizes τ hq
  have hmem := SymbolTable.mem_bindings_of_get? hentry
  obtain ⟨σ', hagree, hopen⟩ := s.exists_opening (hs.numbered.symbols x entry hmem) hθ
  refine (Inference.var_yields hs.untraced hentry).imp ?_
  rintro k s' ⟨-, htypes, hk⟩
  rw [Ty.openedBy_of_isIndexFree (hs.tidy.symbols x entry hmem).indexFree] at hk
  rw [← htypes] at hopen
  have hbefore : s.types.Before s'.types := htypes ▸ s.before_drawTypes _
  have hclasses : s'.types.classes = s.types.classes := by rw [htypes]; rfl
  have hknown : s'.types.known = s.types.known := by rw [htypes]; rfl
  refine ⟨_, hk, hbefore, ?_, fun w hw => ?_, fun h => ?_, σ', hagree, ?_, ?_⟩
  · rw [hknown]
    exact hs.numbered.classes.imp fun v hv => hbefore.old hv
  · obtain ⟨v, hv, hw⟩ := Monotype.mem_occurrences_subst.mp hw
    obtain ⟨u, hu, -, hold⟩ := hopen v hv
    rw [hu, Monotype.mem_occurrences_var] at hw
    exact hw ▸ hold
  · refine Monotype.isWellSplit_subst (hs.wellSplit h x entry hmem) fun v hv => ?_
    obtain ⟨u, hu, -⟩ := hopen v hv
    rw [hu]
    rfl
  · exact hσ.solves.congr hs.numbered.classes hagree hclasses
  · have hmeaning : ∀ v ∈ entry.type.scheme.type.occurrences,
        (Monotype.assign (entry.type.scheme.bound.zip
          (Inference.typeSupply.next s entry.type.scheme.bound.length)) v).subst σ' = θ v := by
      intro v hv
      obtain ⟨u, hu, hmeans, -⟩ := hopen v hv
      rw [hu]
      exact hmeans
    rw [Monotype.subst_subst, Monotype.subst_congr hmeaning]
    exact halike

/-- An application goes through with the solution of its equation. -/
theorem app (hs : s.Ready written) (hsolves : s.types.Solves σ) {j₀ j₁ : Judgment}
    (hj₀ : j₀.type = .mono m₀) (hj₁ : j₁.type = .mono m₁) (hfree₀ : m₀.isIndexFree = true)
    (hfree₁ : m₁.isIndexFree = true) (hwritten₀ : written → m₀.isWellSplit = true)
    (hwritten₁ : written → m₁.isWellSplit = true) (hold₀ : ∀ v ∈ m₀.occurrences, s.types.Old v)
    (hold₁ : ∀ v ∈ m₁.occurrences, s.types.Old v) (halike₀ : (m₀.subst σ).Alike (.arrow a b))
    (halike₁ : (m₁.subst σ).Alike a) :
    Yields (Unwritten written) (fun n => Inference.app ⟨natives, n⟩ j₀ j₁)
      (fun k s' => ∃ m, k.Has m ∧ Solved written σ s s' m b) s := by
  have hbefore := s.before_drawTypes 1
  have htidy : (Inference.drawTypes 1 s).types.Tidy := hs.tidy.types.of_known rfl
  have hplain : TypeContext.Plain (Inference.drawTypes 1 s).types := htidy.toPlain
  have hvold : (Inference.drawTypes 1 s).types.Old (s.types.numbered s.types.nextVar) :=
    hbefore.old_numbered (Nat.lt_succ_self _)
  have hfree : ∀ v, (Monotype.arrow m₁ (.var v)).isIndexFree = true := by
    intro v
    simp [Monotype.arrow, hfree₁]
  obtain ⟨σ', hagree, hsolves', hv, hequation⟩ :=
    hs.exists_result hsolves hold₀ hold₁ halike₀ halike₁
  have hunify := hplain.unify_solved hs.legible hsolves' natives hfree₀ (hfree _) hequation
  refine (Inference.app_yields (P := fun d => d.Plain ∧ d.Solves σ' ∧
    (Inference.drawTypes 1 s).types.Before d ∧ d.known.Within d.Old ∧
    d.classes.Throughout Monotype.Legible) hs.untraced hj₀ hj₁ ?_).imp ?_
  · obtain ⟨bound, ⟨d, hrun, hd, hsolvesd⟩ | ⟨f, d, hrun, hcut, hillegible⟩⟩ := hunify
    · -- nothing but old variables and the fresh one comes into the classes
      obtain ⟨hafter, hwithin⟩ : (Inference.drawTypes 1 s).types.Before d ∧ d.known.Within d.Old := by
        refine TypeContext.within_unify hplain.acyclic
          (hs.numbered.classes.imp fun w hw => hbefore.old hw) (fun w hw => hbefore.old (hold₀ w hw))
          (fun w hw => ?_) (hrun bound (Nat.le_refl _))
        rcases Monotype.mem_occurrences_arrow.mp hw with hw | hw
        · exact hbefore.old (hold₁ w hw)
        · rw [(Monotype.mem_occurrences_var _).mp hw]
          exact hvold
      have hlegible := (TypeContext.unify_keeps_legible _ _ _).of_ok (hrun bound (Nat.le_refl _))
        hs.legible
      exact ⟨bound, .inl ⟨d, hrun, hd, hsolvesd, hafter, hwithin, hlegible⟩⟩
    · refine ⟨bound, .inr ⟨f, d, hrun, hcut, fun hwritten => hillegible ⟨?_, ?_⟩⟩⟩
      · exact Monotype.legible_of_isWellSplit (hwritten₀ hwritten)
      · exact Monotype.legible_arrow.mpr
          ⟨Monotype.legible_of_isWellSplit (hwritten₁ hwritten), Monotype.legible_var⟩
  · rintro k s' ⟨-, ⟨hd, hsolvesd, hafter, hwithin, hlegible⟩, hk⟩
    refine ⟨_, hk, hbefore.trans hafter, hwithin, ?_, fun _ => ?_, σ', hagree, hsolvesd, ?_⟩
    · exact hwithin.find_var hd.acyclic (hafter.old hvold)
    · exact TypeContext.throughout_find (fun key m hget =>
        (hlegible key m hget).isWellSplit (hd.indexFree.types key m hget)) rfl
    · have hfind := hsolvesd.alike_find hd (.var (s.types.numbered s.types.nextVar))
      rw [Monotype.subst_var, hv] at hfind
      exact hfind

/-- An abstraction maps the meaning of its parameter to the type of its body. -/
theorem lam (h : Solved written σ s s' m b) {v : TypeVariable} (hv : s.types.Old v) :
    Solved written σ s s' (.arrow (.var v) m) (.arrow (σ v) b) := by
  obtain ⟨σ', hagree, hsolves, halike⟩ := h.solution
  refine ⟨h.before, h.classes, fun w hw => ?_, fun hwritten => ?_, σ', hagree, hsolves, ?_⟩
  · rcases Monotype.mem_occurrences_arrow.mp hw with hw | hw
    · rw [(Monotype.mem_occurrences_var v).mp hw]
      exact h.before.old hv
    · exact h.old w hw
  · exact Monotype.isWellSplit_arrow.mpr ⟨rfl, h.wellSplit hwritten⟩
  · rw [Monotype.subst_arrow, Monotype.subst_var, hagree v hv]
    exact .arrow rfl halike

end Solved

/-- A derivation is followed by the rules. -/
theorem Typed.yields (natives : InstructionSet) {Γ : List (String × Scheme)} {e : Expr}
    {τ : Monotype} (h : Typed Γ e τ) {written : Prop} {s : Inference} {σ : TypeVariable → Monotype}
    (hs : s.Ready written) (hσ : s.Explains σ Γ) :
    Yields (Unwritten written) (fun n => e.infer ⟨natives, n⟩)
      (fun k s' => ∃ m, k.Has m ∧ Solved written σ s s' m τ) s := by
  -- every rule leaves another context and another substitution to the next one
  induction h generalizing s σ with
  | name hx hq => exact Solved.name hs hσ hx hq
  | @app Γ operator operand a b _ _ ih₀ ih₁ =>
      refine .bind (ih₀ hs hσ) ?_
      rintro n₀ _ s₁ hrun₀ ⟨m₀, ⟨t₀, rfl⟩, h₀⟩
      obtain ⟨hs₁, husable₀, σ₁, hσ₁, hagree₁, halike₀⟩ := h₀.resume hs hσ hrun₀
      refine .bind (ih₁ hs₁ hσ₁) ?_
      rintro n₁ _ s₂ hrun₁ ⟨m₁, ⟨t₁, rfl⟩, h₁⟩
      obtain ⟨hs₂, husable₁, σ₂, hσ₂, hagree₂, halike₁⟩ := h₁.resume hs₁ hσ₁ hrun₁
      have hm₀ : m₀.subst σ₂ = m₀.subst σ₁ :=
        Monotype.subst_congr fun v hv => hagree₂ v (h₀.old v hv)
      refine (Solved.app hs₂ hσ₂.solves rfl rfl husable₀.indexFree husable₁.indexFree h₀.wellSplit
        h₁.wellSplit (fun v hv => h₁.before.old (h₀.old v hv)) h₁.old (hm₀ ▸ halike₀) halike₁).imp ?_
      rintro k s' ⟨m, hk, h⟩
      exact ⟨m, hk, (h.of_later h₁.before hagree₂).of_later h₀.before hagree₁⟩
  | @lam Γ x body a b _ _ ih =>
      refine .bind (Inference.abs_yields x s) ?_
      rintro n₀ _ s₁ hrun₀ ⟨rfl, hsymbols, htypes⟩
      have hkept := (Inference.kept_abs TypeContext.legible_lasting x).of_ok hrun₀
        ⟨hs.legible, hs.untraced⟩
      obtain ⟨hs₁, σ₁, hσ₁, hagree₁, hparameter⟩ :=
        hs.exists_parameter hσ hsymbols htypes hkept.tracing a
      refine .bind (ih hs₁ hσ₁) ?_
      rintro n₁ _ s₂ hrun ⟨m, ⟨t, rfl⟩, h⟩
      have hnamed := named_of_infer _ body hs₁.faithful hrun
      have hnesting : body.nesting ≤ s₂.terms.nextVar := by
        have hcounter := hnamed.counter
        omega
      have hkept' := (body.infer_kept TypeContext.legible_lasting _).of_ok hrun hkept
      refine (Inference.dischargeAbs_yields hkept'.tracing rfl hnamed.elaborates hnesting).imp ?_
      rintro k s' ⟨-, htypes', hk⟩
      have hbefore : s.types.Before s₁.types := htypes ▸ s.before_drawTypes 1
      have hold : s₁.types.Old (s.types.numbered s.types.nextVar) :=
        hbefore.old_numbered (by rw [htypes]; exact Nat.lt_succ_self _)
      have harrow := h.lam hold
      rw [hparameter] at harrow
      exact ⟨_, hk, (harrow.of_later hbefore hagree₁).of_types htypes'⟩
  | @letIn Γ x bound body a b vars _ hvars _ ih₀ ih₁ =>
      refine .bind (ih₀ hs hσ) ?_
      rintro n₀ _ s₁ hrun₀ ⟨m₀, ⟨t₀, rfl⟩, h₀⟩
      obtain ⟨hs₁, husable, σ₁, hσ₁, hagree₁, halike⟩ := h₀.resume hs hσ hrun₀
      refine .bind (Inference.letIn_yields hs₁.untraced rfl) ?_
      rintro n₁ premise s₂ hrun ⟨-, hsymbols, htypes⟩
      have hkept := (Inference.kept_letIn TypeContext.legible_lasting x _).of_ok hrun
        ⟨hs₁.legible, hs₁.untraced⟩
      obtain ⟨hs₂, hσ₂⟩ := hs₁.define hσ₁ husable h₀.wellSplit h₀.old halike hvars hsymbols htypes
        hkept.tracing
      refine .bind (ih₁ hs₂ hσ₂) ?_
      rintro n₂ _ s₃ hrun₁ ⟨m₁, ⟨t₁, rfl⟩, h₁⟩
      have hkept' := (body.infer_kept TypeContext.legible_lasting _).of_ok hrun₁ hkept
      refine (Inference.dischargeLet_yields hkept'.tracing rfl).imp ?_
      rintro k s' ⟨-, htypes', hk⟩
      have hbody : Solved written σ₁ s₁ s₃ m₁ b := h₁.of_later (htypes ▸ .refl _) fun _ _ => rfl
      exact ⟨m₁, hk, (hbody.of_later h₀.before hagree₁).of_types htypes'⟩
  | conv _ halike ih =>
      refine (ih hs hσ).imp ?_
      rintro k s' ⟨m, hk, h⟩
      obtain ⟨σ', hagree, hsolves, halike'⟩ := h.solution
      exact ⟨m, hk, h.before, h.classes, h.old, h.wellSplit, σ', hagree, hsolves, halike'.trans halike⟩

/-- **The rules find principal types.** Γ starts with names that have closed types without dependent
instances and without variables called `_`. If an expression has a type there, then with enough fuel
the rules come to a conclusion, and the type is an instance of the concluded one as the last context
resolves it. Only a counter that runs out can prevent this, and, if some type of Γ cannot be written, a
name that cannot be cut. No rule fails. -/
theorem infer_principal (natives : InstructionSet) {e : Expr} {entries : List (String × Ty)}
    (hentries : ∀ entry ∈ entries, entry.2.scheme.type.Ordinary)
    (hclosed : ∀ entry ∈ entries, ∀ v, ¬entry.2.scheme.Free v) (typeOffset termOffset : Nat)
    {τ : Monotype}
    (h : HasType (entries.reverse.map fun entry => (entry.1, entry.2.scheme)) e τ) :
    ∃ bound, ∀ fuel, bound ≤ fuel →
      (∃ j s, (do Inference.addAll entries; e.infer ⟨natives, fuel⟩)
          (.startingAt typeOffset termOffset) = .ok (.concluded j) s ∧
        ∃ m σ, j.type = .mono m ∧ ((s.types.resolve m).subst σ).Alike τ) ∨
      ∃ f s, (do Inference.addAll entries; e.infer ⟨natives, fuel⟩)
          (.startingAt typeOffset termOffset) = .error f s ∧
        (f = .overflow ∧ s.Exhausted ∨ f.IsCut ∧ ∃ entry ∈ entries, ¬entry.2.Legible) := by
  have hwritten (hlegible : ∀ entry ∈ entries, entry.2.Legible) (entry) (hentry : entry ∈ entries) :
      entry.2.scheme.type.isWellSplit = true := by
    have hfree := (hentries entry hentry).indexFree
    exact Monotype.Legible.isWellSplit
      ((Ty.legible_iff_of_mono (Ty.body_of_isIndexFree hfree)).mp (hlegible entry hentry)) hfree
  obtain ⟨s₀, hadd, hs₀, hσ₀⟩ := (Inference.ready_startingAt typeOffset termOffset).addAll
    (Inference.explains_startingAt typeOffset termOffset) hentries hwritten hclosed
  rw [List.append_nil] at hσ₀
  have hstart : ∀ fuel, (do Inference.addAll entries; e.infer ⟨natives, fuel⟩)
      (.startingAt typeOffset termOffset) = e.infer ⟨natives, fuel⟩ s₀ :=
    fun fuel => Stateful.bind_of_ok hadd
  obtain ⟨bound, ⟨k, s, hrun, m, ⟨term, rfl⟩, hsolved⟩ | ⟨f, s, hrun, hstops⟩⟩ :=
    (hasType_iff_typed.mp h).yields natives hs₀ hσ₀
  · obtain ⟨hready, -, σ, hσ, -, halike⟩ := hsolved.resume hs₀ hσ₀ (hrun bound (Nat.le_refl _))
    have hresolve := hσ.solves.alike_resolve hready.tidy.types.toPlain m
    refine ⟨bound, fun fuel hfuel => .inl ⟨⟨term, .mono m⟩, s, ?_, m, σ, rfl, ?_⟩⟩
    · exact (hstart fuel).trans (hrun fuel hfuel)
    · exact hresolve.trans halike
  · refine ⟨bound, fun fuel hfuel => .inr ⟨f, s, (hstart fuel).trans (hrun fuel hfuel), ?_⟩⟩
    exact hstops.imp_right fun hcut => ⟨hcut.1, by simpa using hcut.2⟩

/-- With `nil` of type `∀ a. [a]`, the expression `let i = λx. x in (i i) nil` has the type `[Nat]`,
and the rules conclude `[$4]`. -/
theorem infer_principal_of_let :
    let natives : InstructionSet := fun _ _ => .fail none
    let nat : Monotype := .const (.plain "Nat")
    let a : TypeVariable := ⟨"a", 0⟩
    let entries : List (String × Ty) := [("nil", .poly ⟨[a], .mono (.list (.var a))⟩)]
    let e : Expr := .letIn "i" (.lam "x" (.name "x"))
      (.app (.app (.name "i") (.name "i")) (.name "nil"))
    let run : Nat → InferM Conclusion := fun fuel => do
      Inference.addAll entries
      e.infer ⟨natives, fuel⟩
    HasType [("nil", ⟨[a], .list (.var a)⟩)] e (.list nat) ∧
    EStateM.run' (do
      let k ← run 20
      let s ← get
      return k.judgment?.bind fun j => j.type.asMonotype.map s.types.resolve)
      (Inference.startingAt 0 0) = some (some (.list (.var ⟨"$4", 0⟩))) ∧
    ∃ bound, ∀ fuel, bound ≤ fuel →
      (∃ j s, run fuel (.startingAt 0 0) = .ok (.concluded j) s ∧
        ∃ m σ, j.type = .mono m ∧ ((s.types.resolve m).subst σ).Alike (.list nat)) ∨
      ∃ f s, run fuel (.startingAt 0 0) = .error f s ∧
        (f = .overflow ∧ s.Exhausted ∨ f.IsCut ∧ ∃ entry ∈ entries, ¬entry.2.Legible) := by
  intro natives nat a entries e run
  have hmember : ∀ entry ∈ entries, entry = ("nil", .poly ⟨[a], .mono (.list (.var a))⟩) :=
    fun entry hentry => List.mem_singleton.mp hentry
  have hentries : ∀ entry ∈ entries, entry.2.scheme.type.Ordinary := by
    intro entry hentry
    rw [hmember entry hentry]
    exact ⟨by decide, by decide⟩
  have hclosed : ∀ entry ∈ entries, ∀ v, ¬entry.2.scheme.Free v := by
    rintro entry hentry v ⟨hoccurs, hbound⟩
    rw [hmember entry hentry] at hoccurs hbound
    exact hbound hoccurs
  -- the identity is used at two instances of its scheme
  have hidentity : ∀ m : Monotype, m.isIndexFree = true →
      Scheme.Instance ⟨[a], .arrow (.var a) (.var a)⟩ (.arrow m m) := by
    intro m hm
    refine ⟨fun _ => m, fun _ => hm, ?_⟩
    rw [Monotype.subst_arrow, Monotype.subst_var, if_pos List.mem_cons_self]
  have htyped : HasType [("nil", ⟨[a], .list (.var a)⟩)] e (.list nat) := by
    have hbound : HasType [("nil", ⟨[a], .list (.var a)⟩)] (.lam "x" (.name "x"))
        (.arrow (.var a) (.var a)) := .lam rfl (.name rfl ⟨.var, fun _ => rfl, rfl⟩)
    refine .letIn [a] hbound ?_ ?_
    · rintro v hv y p hy ⟨-, hnot⟩
      rw [List.lookup_cons] at hy
      split at hy
      · cases hy
        exact hnot hv
      · cases hy
    · refine .app (.app (.name rfl (hidentity (.arrow (.list nat) (.list nat)) (by decide)))
        (.name rfl (hidentity (.list nat) (by decide)))) ?_
      exact .name rfl ⟨fun _ => nat, fun _ => rfl, by decide⟩
  exact ⟨htyped, by decide +kernel, infer_principal natives hentries hclosed 0 0 htyped⟩

/-- With `id` of type `∀ a. a → a` and `x` of a type that is the application of `[]` to `Int`, the
expression `id x` has a type. But if the name `[]` is to be cut at its byte 99, the binding of a variable
to that type cannot be written, and the rules come to no conclusion. -/
theorem infer_stopped_by_illegible_name :
    let natives : InstructionSet := fun _ _ => .fail none
    let a : TypeVariable := ⟨"a", 0⟩
    let boxed : Monotype := .app ⟨"[]", .enclosing 99⟩ [.const (.plain "Int")]
    let entries : List (String × Ty) :=
      [("id", .poly ⟨[a], .mono (.arrow (.var a) (.var a))⟩), ("x", .mono boxed)]
    let e : Expr := .app (.name "id") (.name "x")
    (∀ entry ∈ entries, entry.2.scheme.type.Ordinary) ∧
    (∀ entry ∈ entries, ∀ v, ¬entry.2.scheme.Free v) ∧
    HasType (entries.reverse.map fun entry => (entry.1, entry.2.scheme)) e boxed ∧
    EStateM.run' (do
      Inference.addAll entries
      tryCatch (do let _ ← e.infer ⟨natives, 20⟩; return none) fun f => return some f)
      (Inference.startingAt 0 0) = some (some (.noBoundary "[]" 99)) := by
  intro natives a boxed entries e
  refine ⟨?_, ?_, ?_, ?_⟩
  · intro entry hentry
    rcases List.mem_pair.mp hentry with rfl | rfl
    · exact ⟨by decide, by decide⟩
    · exact ⟨by decide, by decide⟩
  · rintro entry hentry v ⟨hoccurs, hbound⟩
    rcases List.mem_pair.mp hentry with rfl | rfl
    · have hv : v ∈ [a] := List.mem_singleton.mpr ((List.mem_pair.mp hoccurs).elim id id)
      exact hbound hv
    · cases hoccurs
  · refine .app (.name rfl ⟨fun _ => boxed, fun _ => rfl, rfl⟩) (.name rfl ⟨.var, fun _ => rfl, rfl⟩)
  · decide +kernel

end Expr

end IndexedLambda
