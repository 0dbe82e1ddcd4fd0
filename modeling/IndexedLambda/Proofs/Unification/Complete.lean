import IndexedLambda.Proofs.Unification.Termination
/-!
# Completeness of unification

On types without dependent instances unification finds a solution if there is one, and loses none. A
substitution solves a context when it makes every binding an equation, up to how constants are
written. If it also makes two types equal, then unifying them cannot fail, and the substitution
solves the context that is left. So the bindings that unification makes are the most general ones, and
a failure means that there is no solution at all.

`Accepts` is the form in which this goes through a run: a computation that ends, ends well, in a
context that is solved as before.
-/

namespace IndexedLambda

namespace Monotype

/-- The skeleton of an instance of a constant or an application. -/
theorem skeleton_subst_of_isIndexFree {m : Monotype} (hm : m.isVariable = false)
    (hfree : m.isIndexFree = true) (σ : TypeVariable → Monotype) : (m.subst σ).skeleton =
      app (.plain m.headName) (m.params.map fun p => (p.subst σ).skeleton) := by
  cases m with
  | var v => cases hm
  | const c => rfl
  | app head ps => rw [subst_app, skeleton_app, List.map_map]; rfl
  | inst head ps js => exact absurd hfree (by simp)

/-- Two applications that become equal have one head name and parameters that become equal. -/
theorem Alike.of_rigid {a b : Monotype} {σ : TypeVariable → Monotype}
    (h : (a.subst σ).Alike (b.subst σ)) (ha : a.isVariable = false) (hb : b.isVariable = false)
    (hafree : a.isIndexFree = true) (hbfree : b.isIndexFree = true) : a.headName = b.headName ∧
      List.Forall₂ (fun p q => (p.subst σ).Alike (q.subst σ)) a.params b.params := by
  rw [Alike, skeleton_subst_of_isIndexFree ha hafree, skeleton_subst_of_isIndexFree hb hbfree] at h
  injection h with hhead hparams
  refine ⟨congrArg TypeConstant.name hhead, ?_⟩
  rw [← List.forall₂_eq_eq_eq, List.forall₂_map_left_iff, List.forall₂_map_right_iff] at hparams
  exact hparams

end Monotype

/-- The operation unifies two types without dependent instances. -/
def Operation.UnifiesPlain : Operation → Prop
  | .unify _ a b => a.isIndexFree = true ∧ b.isIndexFree = true
  | _ => False

namespace TypeContext

/-- The substitution makes every binding an equation, up to how constants are written. -/
def Solves (σ : TypeVariable → Monotype) (c : TypeContext) : Prop :=
  ∀ v m, c.classes.get? v.key = some m → (σ v).Alike (m.subst σ)

/-- The classes are acyclic and without dependent instances. -/
structure Plain (c : TypeContext) : Prop where
  acyclic : c.known.Acyclic
  indexFree : c.known.IndexFree

theorem Plain.noted {c : TypeContext} (h : Plain c) (step : Nat → UnifyStep) :
    Plain (c.noted step) := by
  constructor
  · rw [known_noted]
    exact h.acyclic
  · rw [known_noted]
    exact h.indexFree

theorem Plain.unify {c : TypeContext} (h : Plain c) (natives : InstructionSet) (n : Nat)
    {a b : Monotype} (ha : a.isIndexFree = true) (hb : b.isIndexFree = true) :
    Plain (endOf (TypeContext.unify natives n a b c)) := by
  have hgrows : Grows .all c.known (endOf (TypeContext.unify natives n a b c)).known :=
    unify_grows n h.acyclic (Region.all_holds _) (Region.all_holds _)
  exact ⟨hgrows.acyclic h.acyclic, unify_keeps_indexFree n ha hb c h.indexFree⟩

section Solutions

variable {c : TypeContext} {σ : TypeVariable → Monotype}

theorem Solves.models (h : Solves σ c) (hc : Plain c) :
    (Reading.ofSubst σ).Models Monotype.skeleton c.known where
  type {v m} hv := by
    rw [Reading.ofSubst_onType]
    exact h v m hv
  term {v t} hv := by
    rw [hc.indexFree.kinds] at hv
    cases hv

theorem Solves.alike_find (h : Solves σ c) (hc : Plain c) (m : Monotype) :
    ((c.find m).subst σ).Alike (m.subst σ) := by
  have hfind := (h.models hc).onType_find hc.acyclic m
  rwa [Reading.ofSubst_onType, Reading.ofSubst_onType] at hfind

theorem Solves.alike_resolve (h : Solves σ c) (hc : Plain c) (m : Monotype) :
    ((c.resolve m).subst σ).Alike (m.subst σ) := by
  have hresolve := (h.models hc).onType_resolve Monotype.congruent_skeleton hc.acyclic m
  rwa [Reading.ofSubst_onType, Reading.ofSubst_onType] at hresolve

/-- Where the occurs check fails there is no solution: the type would weigh more than itself. -/
theorem Solves.hasInside_eq_false (h : Solves σ c) (hc : Plain c) {v : TypeVariable} {m : Monotype}
    (heq : (σ v).Alike (m.subst σ)) : (c.resolve m).hasInside v = false := by
  refine Bool.eq_false_iff.mpr fun hinside => ?_
  obtain ⟨hvar, hocc⟩ := Monotype.hasInside_iff.mp hinside
  have hlt := Reading.weight_type_lt (r := Reading.ofSubst σ) hvar hocc
  rw [Reading.ofSubst_onType] at hlt
  have hweight : ((c.resolve m).subst σ).weight = (σ v).weight := by
    rw [← Monotype.weight_skeleton, h.alike_resolve hc m, ← heq, Monotype.weight_skeleton]
  have hσ : (Reading.ofSubst σ).type v = σ v := rfl
  rw [hweight, hσ] at hlt
  omega

theorem Solves.bind (h : Solves σ c) {v : TypeVariable} {m : Monotype}
    (heq : (σ v).Alike (m.subst σ)) (step : Nat → UnifyStep) :
    Solves σ ((c.noted step).withType v m) := by
  intro w n hget
  have hget' : (c.classes.bind v.key m).get? w.key = some n := by
    have hknown : ((c.noted step).withType v m).known.types.get? w.key = some n := hget
    rwa [known_withType, known_noted] at hknown
  rw [ClassMap.get?_bind] at hget'
  split at hget'
  · rename_i hkey
    cases hget'
    exact TypeVariable.key_injective hkey ▸ heq
  · exact h w n hget'

theorem Solves.noted (h : Solves σ c) (step : Nat → UnifyStep) : Solves σ (c.noted step) := by
  intro v m hget
  have hknown : (c.noted step).known.types.get? v.key = some m := hget
  rw [known_noted] at hknown
  exact h v m hknown

end Solutions

/-! ## Runs lose no solution -/

/-- From a context that the substitution solves the computation never ends in failure, and the
substitution solves the context it leaves. -/
def Accepts (σ : TypeVariable → Monotype) (x : ContextM Status) : Prop :=
  ∀ c status d, Plain c → Solves σ c → x c = .ok status d →
    status = .ok ∧ Plain d ∧ Solves σ d

section Accepts

variable {σ : TypeVariable → Monotype} {natives : InstructionSet}

theorem Accepts.andThen {x y : ContextM Status} (hx : Accepts σ x) (hy : Accepts σ y) :
    Accepts σ (andThen x y) := by
  intro c status e hc hσ he
  rw [andThen_eq] at he
  cases hrun : x c with
  | error f d => rw [hrun] at he; cases he
  | ok status' d =>
      obtain ⟨rfl, hd, hσd⟩ := hx c status' d hc hσ hrun
      rw [hrun] at he
      exact hy d status e hd hσd he

theorem Accepts.done : Accepts σ (return .ok) := by
  rintro c status d hc hσ ⟨⟩
  exact ⟨rfl, hc, hσ⟩

theorem Accepts.pairwise {α : Type} {relate : α → α → ContextM Status} {as bs : List α}
    (h : List.Forall₂ (fun a b => Accepts σ (relate a b)) as bs) :
    Accepts σ (pairwise relate as bs) := by
  induction h with
  | nil => exact .done
  | cons hab _ ih =>
      rw [pairwise_cons]
      exact hab.andThen ih

/-- Without indices, one head name and as many parameters are enough to fit together. -/
theorem not_clash {a b : Monotype} (hafree : a.isIndexFree = true) (hbfree : b.isIndexFree = true)
    (hname : a.headName = b.headName) (hparams : a.params.length = b.params.length) :
    ¬Clash a b := by
  rintro (hne | hne | hne)
  · exact hne hname
  · exact hne hparams
  · rw [Monotype.indexOf_of_isIndexFree hafree, Monotype.indexOf_of_isIndexFree hbfree] at hne
    exact hne rfl

/-- A variable that meets another type is read as that type if the two sides are alike. -/
theorem Meets.alike {a b m : Monotype} {v : TypeVariable} (h : Meets (.var v) m a b)
    (heq : (a.subst σ).Alike (b.subst σ)) : (σ v).Alike (m.subst σ) := by
  rcases h.2 with ⟨rfl, rfl⟩ | ⟨rfl, rfl⟩
  · exact heq
  · exact heq.symm

/-- The parts of two types are accepted if every pair of parameters is. -/
theorem unifyParts_accepts {n : Nat} {a b : Monotype} (ha : a.isIndexFree = true)
    (hb : b.isIndexFree = true)
    (hunify : ∀ {p q : Monotype}, p.isIndexFree = true → q.isIndexFree = true →
      (p.subst σ).Alike (q.subst σ) → Accepts σ (unify natives n p q))
    (hparams : List.Forall₂ (fun p q => (p.subst σ).Alike (q.subst σ)) a.params b.params) :
    Accepts σ (unifyParts (unify natives n) (unifyKind natives n) a b) := by
  obtain ⟨hlength, hpairs⟩ := List.forall₂_iff_zip.mp hparams
  rw [unifyParts_of_isIndexFree ha]
  refine .andThen (.pairwise (List.forall₂_iff_zip.mpr ⟨hlength, fun {p q} hpq => ?_⟩)) .done
  obtain ⟨hp, hq⟩ := List.of_mem_zip hpq
  exact hunify (Monotype.isIndexFree_of_mem_params ha hp) (Monotype.isIndexFree_of_mem_params hb hq)
    (hpairs hpq)

/-- Two types that the substitution makes equal are accepted. -/
theorem unify_accepts (n : Nat) {a b : Monotype} (ha : a.isIndexFree = true)
    (hb : b.isIndexFree = true) (heq : (a.subst σ).Alike (b.subst σ)) :
    Accepts σ (unify natives n a b) := by
  induction n generalizing a b with
  | zero => intro c status d _ _ hrun; cases hrun
  | succ n ih =>
      intro c status d hc hσ hrun
      have hd : Plain d := by
        have hplain := hc.unify natives (n + 1) ha hb
        rwa [hrun, endOf_ok] at hplain
      have ha' : (c.find a).isIndexFree = true := throughout_find hc.indexFree.types ha
      have hb' : (c.find b).isIndexFree = true := throughout_find hc.indexFree.types hb
      have heq' : ((c.find a).subst σ).Alike ((c.find b).subst σ) :=
        (hσ.alike_find hc a).trans (heq.trans (hσ.alike_find hc b).symm)
      have hcase := unifyCase natives n a b c
      rw [hrun] at hcase
      generalize hresult : EStateM.Result.ok status d = result at hcase
      cases hcase with
      | same step =>
          cases hresult
          exact ⟨rfl, hd, hσ.noted step⟩
      | inside v m step hmeets hinside =>
          rw [hσ.hasInside_eq_false hc (hmeets.alike heq')] at hinside
          cases hinside
      | bind v m step hmeets =>
          cases hresult
          exact ⟨rfl, hd, hσ.bind (hmeets.alike heq') step⟩
      | illegible m f => cases hresult
      | clash status' step havar hbvar _ hclash =>
          obtain ⟨hname, hparams⟩ := heq'.of_rigid havar hbvar ha' hb'
          exact absurd hclash (not_clash ha' hb' hname hparams.length_eq)
      | parts step havar hbvar =>
          obtain ⟨-, hparams⟩ := heq'.of_rigid havar hbvar ha' hb'
          exact unifyParts_accepts ha' hb' ih hparams (c.noted step) status d (hc.noted step)
            (hσ.noted step) hresult.symm

end Accepts

theorem Reachable.plain {c : TypeContext} (h : Reachable Operation.UnifiesPlain c) : Plain c := by
  obtain ⟨offset, number, hsteps⟩ := h
  induction hsteps with
  | refl =>
      refine ⟨acyclic_startingAt offset number, ⟨fun key m h => ?_, fun key => ?_⟩⟩
      · simp [startingAt] at h
      · simp [startingAt]
  | tail _ hstep ih =>
      obtain ⟨op, hop, rfl⟩ := hstep
      cases op with
      | unify ev a b => exact ih.unify ev.natives ev.fuel hop.1 hop.2
      | _ => exact hop.elim

/-- In classes without dependent instances whose types can be written, two such types are well split
with them if they can be written themselves. -/
theorem Plain.wellSplit {c : TypeContext} (h : Plain c)
    (hlegible : c.known.types.Throughout Monotype.Legible) {a b : Monotype} (ha : a.isIndexFree = true)
    (hb : b.isIndexFree = true) (hawritten : a.Legible) (hbwritten : b.Legible) : c.WellSplit a b where
  classes key m hget := (hlegible key m hget).isWellSplit (h.indexFree.types key m hget)
  left := hawritten.isWellSplit ha
  right := hbwritten.isWellSplit hb

/-- Types without dependent instances are unified with a status, unless one of them cannot be written. -/
theorem Plain.unify_settles {c : TypeContext} (h : Plain c)
    (hlegible : c.known.types.Throughout Monotype.Legible) (natives : InstructionSet) {a b : Monotype}
    (ha : a.isIndexFree = true) (hb : b.isIndexFree = true) :
    Settles (fun n => TypeContext.unify natives n a b)
      (fun f _ => f.IsCut ∧ ¬(a.Legible ∧ b.Legible)) c := by
  have hterms {m : Monotype} (hm : m.isIndexFree = true) : (c.resolve m).indexTerms = [] :=
    Monotype.indexTerms_eq_nil (throughout_resolve Monotype.pervasive_isIndexFree h.indexFree.types hm)
  refine (unify_settles_of_indexTerms_eq_nil h.acyclic (hterms ha) (hterms hb)).imp ?_
  rintro n f ⟨hcut, hsplit⟩
  exact ⟨hcut, fun hwritten => hsplit (h.wellSplit hlegible ha hb hwritten.1 hwritten.2)⟩

/-- **Unification is complete and most general** on types without dependent instances. A substitution
that solves the context and makes the two types equal is not lost: unification ends well and the
substitution solves the context that is left, unless one of the two types cannot be written, for then
it may end in the fault of a name that cannot be cut. A failure always means that there is no such
substitution. -/
theorem Reachable.unify_complete {c : TypeContext} (h : Reachable Operation.UnifiesPlain c)
    (natives : InstructionSet) {a b : Monotype} (ha : a.isIndexFree = true)
    (hb : b.isIndexFree = true) :
    (∀ σ, Solves σ c → (a.subst σ).Alike (b.subst σ) →
      ∃ result bound, (∀ n, bound ≤ n → unify natives n a b c = result) ∧
        ((∃ d, result = .ok .ok d ∧ Solves σ d) ∨
          ∃ f d, result = .error f d ∧ f.IsCut ∧ ¬(a.Legible ∧ b.Legible))) ∧
    ∀ n status d, unify natives n a b c = .ok status d → status ≠ .ok →
      ¬∃ σ, Solves σ c ∧ (a.subst σ).Alike (b.subst σ) := by
  have hc := h.plain
  constructor
  · intro σ hσ heq
    obtain ⟨result, bound, hrun, hfault⟩ := hc.unify_settles h.legible natives ha hb
    refine ⟨result, bound, hrun, ?_⟩
    cases result with
    | error f d => exact .inr ⟨f, d, rfl, hfault f d rfl⟩
    | ok status d =>
        obtain ⟨rfl, -, hσd⟩ :=
          unify_accepts bound ha hb heq c status d hc hσ (hrun bound (Nat.le_refl _))
        exact .inl ⟨d, rfl, hσd⟩
  · rintro n status d hrun hfailed ⟨σ, hσ, heq⟩
    exact hfailed (unify_accepts n ha hb heq c status d hc hσ hrun).1

/-- With `a` bound to `[b]`, the types `a -> b` and `[Nat] -> x` are unified as the substitution of
`Nat` for `b` and `x` says they can be, while `b` and `[a]` have no solution. -/
theorem unify_complete_of_arrows :
    let natives : InstructionSet := fun _ _ => .fail none
    let nat : Monotype := .const (.plain "Nat")
    let a : Monotype := .var ⟨"a", 0⟩
    let b : Monotype := .var ⟨"b", 0⟩
    let x : Monotype := .var ⟨"x", 0⟩
    let left := Monotype.arrow a b
    let right := Monotype.arrow (.list nat) x
    let c := Operation.run (startingAt 0 0) (.unify ⟨natives, 5⟩ a (.list b))
    let σ : TypeVariable → Monotype := fun v => if v = ⟨"a", 0⟩ then .list nat else nat
    Reachable Operation.UnifiesPlain c ∧ Solves σ c ∧ (left.subst σ).Alike (right.subst σ) ∧
      (∃ d bound, (∀ n, bound ≤ n → unify natives n left right c = .ok .ok d) ∧ Solves σ d) ∧
      unify natives 5 b (.list a) c = .ok .occursCheckFailed c ∧
      ¬∃ σ, Solves σ c ∧ (b.subst σ).Alike ((Monotype.list a).subst σ) := by
  intro natives nat a b x left right c σ
  have hc : Reachable Operation.UnifiesPlain c :=
    ⟨0, 0, .single ⟨.unify ⟨natives, 5⟩ a (.list b), ⟨rfl, rfl⟩, rfl⟩⟩
  have hσ : Solves σ c := by
    intro v m hget
    have hclasses : c.classes = ClassMap.empty.bind "a#0" (.list b) := rfl
    rw [hclasses, ClassMap.get?_bind] at hget
    split at hget
    · rename_i hkey
      obtain rfl : ⟨"a", 0⟩ = v := TypeVariable.key_injective hkey
      cases hget
      decide
    · simp at hget
  have heq : (left.subst σ).Alike (right.subst σ) := by decide
  have hfails : unify natives 5 b (.list a) c = .ok .occursCheckFailed c := rfl
  refine ⟨hc, hσ, heq, ?_, hfails, ?_⟩
  · obtain ⟨result, bound, hrun, ⟨d, rfl, hσd⟩ | ⟨f, d, rfl, -, hwritten⟩⟩ :=
      (Reachable.unify_complete hc natives (by decide) (by decide)).1 σ hσ heq
    · exact ⟨d, bound, hrun, hσd⟩
    · exact absurd ⟨⟨_, rfl⟩, ⟨_, rfl⟩⟩ hwritten
  · exact (Reachable.unify_complete hc natives (by decide) (by decide)).2 5 _ c hfails (by decide)

/-- `a` and the application of `[]` to `Int` have a solution, but if the name of this constant is to be
cut at its byte 99, binding `a` cannot be written, and the run ends in a fault. -/
theorem unify_stopped_by_illegible_binding :
    let natives : InstructionSet := fun _ _ => .fail none
    let int : Monotype := .const (.plain "Int")
    let boxed : Monotype := .app ⟨"[]", .enclosing 99⟩ [int]
    let c := startingAt 0 0
    let σ : TypeVariable → Monotype := fun _ => boxed
    Solves σ c ∧ ((Monotype.var ⟨"a", 0⟩).subst σ).Alike (boxed.subst σ) ∧
      ∀ n, unify natives (n + 1) (.var ⟨"a", 0⟩) boxed c = .error (.noBoundary "[]" 99) c := by
  refine ⟨fun v m hget => ?_, by decide, fun n => rfl⟩
  simp [startingAt] at hget

end TypeContext

end IndexedLambda
