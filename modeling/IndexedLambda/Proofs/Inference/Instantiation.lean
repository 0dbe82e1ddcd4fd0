import IndexedLambda.Proofs.Inference.Fresh
import IndexedLambda.Proofs.Types.AlphaEquivalence
import Mathlib.Logic.Equiv.Basic
/-!
# Opening equal polytypes

Equality of polytypes replaces every binder, `Inference.instantiate` every binder except `_`. The two
can only agree on polytypes where this makes no difference, and only if the fresh variables are none
that a client has used already. Under these two conditions equal polytypes are opened to types that
differ in the names of the fresh variables alone.

The bodies of equal polytypes mention the same places of the two lists of binders, so a variable of
the one body has a partner in the other (`Polytype.partner`). To open the second polytype is to put in
for the variables of the first body what their partners become (`Polytype.subst_partner`). Both ways
to replace the variables of the first body are one-to-one there, and a permutation leads from the one
to the other (`exists_perm_of_injOn`).
-/

namespace IndexedLambda

/-! ## Permutations -/

/-- Two ways to name the elements of a list one-to-one differ by a permutation of the names in use. -/
theorem exists_perm_of_injOn {α β : Type} [DecidableEq α] [DecidableEq β] {f g : α → β}
    {l : List α} (hf : ∀ a ∈ l, ∀ b ∈ l, f a = f b → a = b)
    (hg : ∀ a ∈ l, ∀ b ∈ l, g a = g b → a = b) :
    ∃ π : Equiv.Perm β, (∀ a ∈ l, π (f a) = g a) ∧
      ∀ x, (∀ a ∈ l, x ≠ f a ∧ x ≠ g a) → π x = x := by
  induction l with
  | nil => exact ⟨Equiv.refl β, by simp, fun _ _ => rfl⟩
  | cons a l ih =>
      obtain ⟨π, hπ, hfix⟩ := ih
        (fun b hb c hc => hf b (List.mem_cons_of_mem a hb) c (List.mem_cons_of_mem a hc))
        (fun b hb c hc => hg b (List.mem_cons_of_mem a hb) c (List.mem_cons_of_mem a hc))
      -- what the permutation has made of the new name changes places with what it should be
      refine ⟨π.trans (Equiv.swap (π (f a)) (g a)), fun b hb => ?_, fun x hx => ?_⟩
      · rw [Equiv.trans_apply]
        by_cases hba : b = a
        · rw [hba]
          exact Equiv.swap_apply_left _ _
        · have hb' : π (f b) = g b := hπ b ((List.mem_cons.mp hb).resolve_left hba)
          have hleft : g b ≠ π (f a) := fun h =>
            hba (hf b hb a List.mem_cons_self (π.injective (hb'.trans h)))
          have hright : g b ≠ g a := fun h => hba (hg b hb a List.mem_cons_self h)
          rw [hb', Equiv.swap_apply_of_ne_of_ne hleft hright]
      · have hstay : π x = x := hfix x fun b hb => hx b (List.mem_cons_of_mem a hb)
        obtain ⟨hxf, hxg⟩ := hx a List.mem_cons_self
        have hleft : x ≠ π (f a) := fun h => hxf (π.injective (hstay.trans h))
        rw [Equiv.trans_apply, hstay, Equiv.swap_apply_of_ne_of_ne hleft hxg]

/-- If the names differ from the elements only where both are new, no other name need be moved. -/
theorem exists_perm_of_new {α : Type} [DecidableEq α] {f g : α → α} {l : List α} {New : α → Prop}
    (hf : ∀ a ∈ l, ∀ b ∈ l, f a = f b → a = b) (hg : ∀ a ∈ l, ∀ b ∈ l, g a = g b → a = b)
    (hnew : ∀ a ∈ l, (New (f a) ∧ New (g a)) ∨ (f a = a ∧ g a = a)) :
    ∃ π : Equiv.Perm α, (∀ a ∈ l, π (f a) = g a) ∧ ∀ x, π x ≠ x → New x := by
  obtain ⟨π, hπ, hfix⟩ := exists_perm_of_injOn hf hg
  refine ⟨π, hπ, fun x hmoved => ?_⟩
  by_contra hold
  refine hmoved ?_
  by_cases hx : x ∈ l ∧ f x = x ∧ g x = x
  · obtain ⟨hxl, hxf, hxg⟩ := hx
    have himage := hπ x hxl
    rwa [hxf, hxg] at himage
  · refine hfix x fun a ha => ?_
    rcases hnew a ha with ⟨hfa, hga⟩ | ⟨hfa, hga⟩
    · exact ⟨fun h => hold (h ▸ hfa), fun h => hold (h ▸ hga)⟩
    · have hne : x ≠ a := fun h => hx (h ▸ ⟨ha, hfa, hga⟩)
      rw [hfa, hga]
      exact ⟨hne, hne⟩

/-! ## Binders at the same place -/

namespace Polytype

variable {p q : Polytype} {v w : TypeVariable}

/-- What stands in the other polytype where the first one has this variable: the binder at the same
place, and the variable itself if it is not bound. -/
def partner (p q : Polytype) (v : TypeVariable) : TypeVariable := q.binders.getD (p.binders.idxOf v) v

/-- A `_` that the body mentions has itself for a partner. -/
def WildcardsMatch (p q : Polytype) : Prop :=
  ∀ v ∈ p.body.freeVariables, v.isWildcard = true ∨ (p.partner q v).isWildcard = true →
    p.partner q v = v

/-- Equal polytypes mention the same places. -/
theorem partner_place (h : (p == q) = true) (hv : v ∈ p.body.freeVariables) :
    p.partner q v ∈ q.body.freeVariables ∧
      q.binders.idxOf (p.partner q v) = p.binders.idxOf v ∧
      (v ∉ p.binders → p.partner q v = v) := by
  obtain ⟨hlength, hbodies⟩ := alphaEq_iff.mp h
  obtain ⟨hp, hq⟩ := unused_placeholders hlength
  generalize placeholderNames (p.body.freeVariables ++ q.body.freeVariables) p.binders.length = vars
    at hp hq
  have hassign : ∀ r : Polytype, r.Unused vars → ∀ u,
      Monotype.assign (r.binders.zip (vars.map .var)) u = .var (vars.getD (r.binders.idxOf u) u) := by
    intro r hr u
    rw [Monotype.assign_zip (by rw [List.length_map, hr.length]), List.getD_map]
  -- the placeholder that `v` becomes is one that some variable of the other body becomes
  have hmem : vars.getD (p.binders.idxOf v) v ∈ (p.bodyAt (vars.map .var)).freeVariables :=
    Body.mem_freeVariables_subst.mpr ⟨v, hv, by rw [hassign p hp, Monotype.mem_occurrences_var]⟩
  rw [(hbodies _ (by rw [List.length_map, hp.length])).mem_freeVariables] at hmem
  obtain ⟨u, hu, hsame⟩ := Body.mem_freeVariables_subst.mp hmem
  rw [hassign q hq, Monotype.mem_occurrences_var] at hsame
  have hplace : u = p.partner q v ∧ q.binders.idxOf u = p.binders.idxOf v := by
    unfold partner
    by_cases hvp : p.binders.idxOf v < vars.length
    · rw [List.getD_eq_getElem _ _ hvp] at hsame
      by_cases huq : q.binders.idxOf u < vars.length
      · rw [List.getD_eq_getElem _ _ huq] at hsame
        have hidx : p.binders.idxOf v = q.binders.idxOf u := hq.nodup.getElem_inj_iff.mp hsame
        have hlt : q.binders.idxOf u < q.binders.length := hq.length ▸ huq
        rw [hidx, List.getD_eq_getElem _ _ hlt, List.getElem_idxOf]
        exact ⟨rfl, rfl⟩
      · rw [List.getD_eq_default _ _ (Nat.le_of_not_lt huq)] at hsame
        exact absurd (hsame ▸ hu) (hq.absent _ (List.getElem_mem hvp))
    · rw [List.getD_eq_default _ _ (Nat.le_of_not_lt hvp)] at hsame
      by_cases huq : q.binders.idxOf u < vars.length
      · rw [List.getD_eq_getElem _ _ huq] at hsame
        exact absurd (hsame ▸ hv) (hp.absent _ (List.getElem_mem huq))
      · rw [List.getD_eq_default _ _ (Nat.le_of_not_lt huq)] at hsame
        have hvp' := List.idxOf_le_length (a := v) (l := p.binders)
        have huq' := List.idxOf_le_length (a := u) (l := q.binders)
        have hlp := hp.length
        have hlq := hq.length
        rw [List.getD_eq_default _ _ (by omega)]
        exact ⟨hsame.symm, by omega⟩
  obtain ⟨rfl, hidx⟩ := hplace
  refine ⟨hu, hidx, fun hfree => List.getD_eq_default _ _ (Nat.le_of_eq ?_)⟩
  rw [List.idxOf_eq_length hfree, hlength]

/-- A variable is bound just if its partner is. -/
theorem partner_mem_binders (h : (p == q) = true) (hv : v ∈ p.body.freeVariables) :
    p.partner q v ∈ q.binders ↔ v ∈ p.binders := by
  obtain ⟨hlength, -⟩ := alphaEq_iff.mp h
  rw [← List.idxOf_lt_length_iff, ← List.idxOf_lt_length_iff, (partner_place h hv).2.1, hlength]

/-- Different variables have different partners. -/
theorem partner_inj (h : (p == q) = true) (hv : v ∈ p.body.freeVariables)
    (hw : w ∈ p.body.freeVariables) (hsame : p.partner q v = p.partner q w) : v = w := by
  obtain ⟨-, hidx, hfree⟩ := partner_place h hv
  obtain ⟨-, hidx', hfree'⟩ := partner_place h hw
  by_cases hbound : v ∈ p.binders
  · exact (List.idxOf_inj hbound).mp (by rw [← hidx, hsame, hidx'])
  · have hbound' : w ∉ p.binders := by
      rwa [← partner_mem_binders h hw, ← hsame, partner_mem_binders h hv]
    rw [← hfree hbound, hsame, hfree' hbound']

/-- Equal polytypes have the same free variables. -/
theorem mem_freeVariables_of_alphaEq (h : (p == q) = true) (hv : v ∈ p.freeVariables) :
    v ∈ q.freeVariables := by
  have hfree : ∀ r : Polytype, v ∈ r.freeVariables ↔ v ∈ r.body.freeVariables ∧ v ∉ r.binders := by
    intro r
    simp [freeVariables]
  obtain ⟨hbody, hbound⟩ := (hfree p).mp hv
  obtain ⟨hmem, -, hself⟩ := partner_place h hbody
  have hnot := mt (partner_mem_binders h hbody).mp hbound
  rw [hself hbound] at hmem hnot
  exact (hfree q).mpr ⟨hmem, hnot⟩

/-- To replace the binders of one polytype is, up to strict equality, to replace the variables of an
equal one by what becomes of their partners. -/
theorem subst_partner (h : (p == q) = true) {g : TypeVariable → Monotype}
    (hg : ∀ v, v ∉ q.binders → g v = .var v) :
    (q.body.subst g).StrictEq (p.body.subst fun v => g (p.partner q v)) := by
  obtain ⟨hlength, hbodies⟩ := alphaEq_iff.mp h
  have hassign : ∀ r : Polytype, r.binders.length = q.binders.length → ∀ v u,
      q.binders.idxOf u = r.binders.idxOf v → (v ∉ r.binders → u = v) →
      Monotype.assign (r.binders.zip (q.binders.map g)) v = g u := by
    intro r hr v u hidx hself
    rw [Monotype.assign_zip (by rw [List.length_map, hr]), ← hidx]
    by_cases hu : u ∈ q.binders
    · have hlt := List.idxOf_lt_length_iff.mpr hu
      rw [List.getD_eq_getElem _ _ (by rwa [List.length_map]), List.getElem_map, List.getElem_idxOf]
    · have hlong : (q.binders.map g).length ≤ q.binders.idxOf u :=
        Nat.le_of_eq (by rw [List.idxOf_eq_length hu, List.length_map])
      have hv : v ∉ r.binders := by
        rwa [← List.idxOf_lt_length_iff, ← hidx, hr, List.idxOf_lt_length_iff]
      rw [List.getD_eq_default _ _ hlong, hg u hu, hself hv]
  have hsecond : q.bodyAt (q.binders.map g) = q.body.subst g :=
    Body.subst_congr fun v _ => hassign q rfl v v rfl fun _ => rfl
  have hfirst : p.bodyAt (q.binders.map g) = p.body.subst fun v => g (p.partner q v) := by
    refine Body.subst_congr fun v hv => ?_
    obtain ⟨-, hidx, hself⟩ := partner_place h hv
    exact hassign p hlength v _ hidx hself
  rw [← hsecond, ← hfirst]
  exact (hbodies _ (by rw [List.length_map, hlength])).symm

end Polytype

/-! ## Index terms of opened bodies -/

namespace Body

variable {σ : TypeVariable → Monotype} {terms : List Term} {b : Body} {v : TypeVariable}

theorem arity_subst : (b.subst σ).arity = b.arity := by
  cases b with
  | mono m => rfl
  | dependent d => exact congrArg Nat.succ (List.length_map _)

theorem subst_openedBy : (b.openedBy terms).subst σ = (b.subst σ).openedBy terms := by
  cases b with
  | mono m => rfl
  | dependent d =>
      show (d.indexedBy terms).subst σ = (d.subst σ).indexedBy terms
      have hkinds : (d.subst σ).binders.map (·.2) = (d.binders.map (·.2)).map (·.subst σ) := by
        rw [DependentType.binders_subst, List.map_map, List.map_map]
        rfl
      have hindex : terms.zip ((d.binders.map (·.2)).map (·.subst σ)) =
          (terms.zip (d.binders.map (·.2))).map fun j => (j.1, j.2.subst σ) := List.zip_map_right
      rw [DependentType.indexedBy, DependentType.indexedBy, Monotype.subst_inst, hkinds, hindex,
        List.map_append, DependentType.params_subst, DependentType.index_subst]
      rfl

theorem arity_erased : b.erased.arity = b.arity := by
  cases b with
  | mono m => rfl
  | dependent d => exact congrArg Nat.succ (List.length_map _)

theorem erased_openedBy :
    (b.openedBy terms).erased = b.erased.openedBy (terms.map (·.erased)) := by
  cases b with
  | mono m => rfl
  | dependent d =>
      show (d.indexedBy terms).erased = d.erased.indexedBy (terms.map (·.erased))
      have hkinds : d.erased.binders.map (·.2) = (d.binders.map (·.2)).map (·.erased) := by
        rw [DependentType.binders_erased, List.map_map, List.map_map]
        rfl
      rw [DependentType.indexedBy, DependentType.indexedBy, Monotype.erased, Monotype.mapIndex_inst,
        hkinds, List.zip_map, List.map_append, DependentType.params_erased,
        DependentType.index_erased]
      rfl

theorem StrictEq.openedBy {c : Body} (h : b.StrictEq c) (terms : List Term) :
    (b.openedBy terms).StrictEq (c.openedBy terms) := by
  rw [Monotype.StrictEq, erased_openedBy, erased_openedBy, show b.erased = c.erased from h]

theorem StrictEq.arity_eq {c : Body} (h : b.StrictEq c) : b.arity = c.arity := by
  rw [← arity_erased, show b.erased = c.erased from h, arity_erased]

theorem mem_freeVariables_of_openedBy (h : v ∈ (b.openedBy terms).occurrences) :
    v ∈ b.freeVariables := by
  cases b with
  | mono m => exact Monotype.mem_freeVariables.mpr h
  | dependent d =>
      refine List.mem_eraseDups.mpr (DependentType.mem_occurrences.mpr ?_)
      rcases (Monotype.mem_occurrences_inst ..).mp h with hparams | ⟨j, hj, hv⟩
      · exact .inr (.inl hparams)
      · rcases List.mem_append.mp hj with hj | hj
        · exact .inr (.inr ⟨j, hj, hv⟩)
        · obtain ⟨b, hb, hkind⟩ := List.mem_map.mp (List.of_mem_zip hj).2
          exact .inl ⟨b, hb, hkind ▸ hv⟩

end Body

/-! ## Opening -/

/-- The binders that are replaced when a polytype is opened. -/
def Polytype.named (p : Polytype) : List TypeVariable := p.binders.filter fun v => !v.isWildcard

theorem Polytype.mem_named {p : Polytype} {v : TypeVariable} :
    v ∈ p.named ↔ v ∈ p.binders ∧ v.isWildcard = false := by
  simp [named]

namespace Inference

/-- The variable is one of the fresh ones that were taken between the two contexts. -/
def Created (s s' : Inference) (v : TypeVariable) : Prop :=
  ∃ k, s.types.nextVar ≤ k ∧ k < s'.types.nextVar ∧ v = s.types.numbered k

/-- What becomes of a variable when the polytype is opened. -/
def opening (s : Inference) (p : Polytype) (v : TypeVariable) : TypeVariable :=
  if v ∈ p.named then s.types.numbered (s.types.nextVar + p.named.idxOf v) else v

variable {s s' : Inference} {p : Polytype} {v w : TypeVariable}

theorem not_isWildcard_of_created (h : s.Created s' v) : v.isWildcard = false := by
  obtain ⟨k, -, -, rfl⟩ := h
  exact isWildcard_dollar k s.types.number

theorem opening_of_not_named (hv : v ∉ p.named) : s.opening p v = v := if_neg hv

theorem assign_named (s : Inference) (p : Polytype) (v : TypeVariable) :
    Monotype.assign (p.named.zip (typeSupply.next s p.named.length)) v = .var (s.opening p v) := by
  rw [Monotype.assign_zip (typeSupply.length_next s _), opening]
  by_cases hv : v ∈ p.named
  · have hlt := List.idxOf_lt_length_iff.mpr hv
    rw [if_pos hv, List.getD_eq_getElem _ _ (by rwa [typeSupply.length_next])]
    simp only [Supply.next, List.getElem_map, List.getElem_range', Nat.one_mul]
    rfl
  · rw [if_neg hv, List.idxOf_eq_length hv]
    exact List.getD_eq_default _ _ (Nat.le_of_eq (typeSupply.length_next s _))

/-- Where every `_` has itself for a partner, variables are replaced together with their partners, and
the others are their own partners. -/
theorem named_partner {q : Polytype} (hequal : (p == q) = true) (hwildcards : p.WildcardsMatch q)
    (hv : v ∈ p.body.freeVariables) :
    (p.partner q v ∈ q.named ↔ v ∈ p.named) ∧ (v ∉ p.named → p.partner q v = v) := by
  have hself := hwildcards v hv
  rw [Polytype.mem_named, Polytype.mem_named, Polytype.partner_mem_binders hequal hv]
  cases hwild : v.isWildcard with
  | true =>
      rw [hself (.inl hwild), hwild]
      exact ⟨Iff.rfl, fun _ => rfl⟩
  | false =>
      have hpartner : (p.partner q v).isWildcard = false := by
        by_contra hne
        have hpartner := Bool.of_not_eq_false hne
        rw [hself (.inr hpartner), hwild] at hpartner
        cases hpartner
      rw [hpartner]
      exact ⟨Iff.rfl, fun hnot => (Polytype.partner_place hequal hv).2.2 fun hmem => hnot ⟨hmem, rfl⟩⟩

/-- A polytype is opened as long as there are fresh variables. -/
theorem instantiate_poly_cases (s : Inference) (p : Polytype) :
    instantiate (.poly p) s = .ok
        ((p.body.openedBy (termSupply.next s.terms p.body.arity)).subst fun v => .var (s.opening p v))
        (drawTerms p.body.arity (drawTypes p.named.length s)) ∨
      ∃ s', instantiate (.poly p) s = .error .overflow s' ∧
        (counterRange ≤ s.types.nextVar + p.named.length ∨
          counterRange ≤ s.terms.nextVar + p.body.arity) := by
  rcases instantiate_cases (.poly p) s with h | ⟨s', h, -, hfull⟩
  · refine .inl (h.trans ?_)
    have hsubst : Monotype.assign (p.named.zip (typeSupply.next s p.named.length)) =
        fun v => .var (s.opening p v) := funext (s.assign_named p)
    rw [← hsubst]
    rfl
  · exact .inr ⟨s', h, hfull⟩

/-- A type with a monotype for its body takes fresh type variables only. -/
theorem instantiate_mono_cases {y : Ty} {b : Monotype} (hbody : y.toPolytype.body = .mono b)
    (s : Inference) :
    instantiate y s = .ok (b.subst fun v => .var (s.opening y.toPolytype v))
        (drawTypes y.toPolytype.named.length s) ∨
      ∃ s', instantiate y s = .error .overflow s' ∧
        counterRange ≤ s.types.nextVar + y.toPolytype.named.length := by
  rcases typeSupply.mapM_cases y.toPolytype.named s with htypes | ⟨k, hk, htypes, hfull⟩
  · have hindexed : onTerms y.toPolytype.body.indexedByFresh
        (drawTypes y.toPolytype.named.length s) = .ok b (drawTypes y.toPolytype.named.length s) := by
      rw [hbody]
      rfl
    have hsubst : Monotype.assign (y.toPolytype.named.zip
        (typeSupply.next s y.toPolytype.named.length)) = fun v => .var (s.opening y.toPolytype v) :=
      funext (s.assign_named y.toPolytype)
    refine .inl ((Stateful.bind_of_ok htypes).trans ((Stateful.bind_of_ok hindexed).trans ?_))
    rw [← hsubst]
    rfl
  · have hcount : typeSupply.count s = s.types.nextVar := rfl
    exact .inr ⟨_, Stateful.bind_of_error htypes, by omega⟩

theorem created_opening (hs' : s'.types.nextVar = s.types.nextVar + p.named.length)
    (hv : v ∈ p.named) : s.Created s' (s.opening p v) := by
  have hlt := List.idxOf_lt_length_iff.mpr hv
  exact ⟨s.types.nextVar + p.named.idxOf v, by omega, by omega, if_pos hv⟩

/-- A variable that is not replaced is not a fresh one, unless the polytype has it free. -/
theorem not_created_of_not_named (hfree : ∀ v, s.Created s' v → v ∉ p.freeVariables)
    (hv : v ∈ p.body.freeVariables) (hnamed : v ∉ p.named) : ¬s.Created s' v := by
  intro hcreated
  refine hfree v hcreated (List.mem_filter.mpr ⟨hv, ?_⟩)
  have hbinders : v ∉ p.binders := fun hmem =>
    hnamed (Polytype.mem_named.mpr ⟨hmem, not_isWildcard_of_created hcreated⟩)
  simpa using hbinders

/-- No two variables of a body become one when the polytype is opened. -/
theorem opening_inj (hs' : s'.types.nextVar = s.types.nextVar + p.named.length)
    (hfree : ∀ v, s.Created s' v → v ∉ p.freeVariables) (hv : v ∈ p.body.freeVariables)
    (hw : w ∈ p.body.freeVariables) (hsame : s.opening p v = s.opening p w) : v = w := by
  by_cases hvn : v ∈ p.named
  · by_cases hwn : w ∈ p.named
    · rw [opening, opening, if_pos hvn, if_pos hwn] at hsame
      exact (List.idxOf_inj hvn).mp (Nat.add_left_cancel (TypeContext.numbered_inj hsame))
    · have hcreated := created_opening hs' hvn
      rw [hsame, opening_of_not_named hwn] at hcreated
      exact absurd hcreated (not_created_of_not_named hfree hw hwn)
  · by_cases hwn : w ∈ p.named
    · have hcreated := created_opening hs' hwn
      rw [← hsame, opening_of_not_named hvn] at hcreated
      exact absurd hcreated (not_created_of_not_named hfree hv hvn)
    · rwa [opening_of_not_named hvn, opening_of_not_named hwn] at hsame

theorem eq_of_instantiate_poly {m : Monotype} (h : instantiate (.poly p) s = .ok m s') :
    m = (p.body.openedBy (termSupply.next s.terms p.body.arity)).subst (fun v => .var (s.opening p v)) ∧
      s'.types.nextVar = s.types.nextVar + p.named.length := by
  rcases s.instantiate_poly_cases p with h' | ⟨_, h', -⟩
  · cases h.symm.trans h'
    exact ⟨rfl, rfl⟩
  · cases h.symm.trans h'

/-- With room in both counters a polytype is opened. -/
theorem instantiate_poly_of_room {m : Monotype}
    (htypes : s.types.nextVar + p.named.length < counterRange)
    (hterms : s.terms.nextVar + p.body.arity < counterRange)
    (hm : (p.body.openedBy (termSupply.next s.terms p.body.arity)).subst
      (fun v => .var (s.opening p v)) = m) :
    instantiate (.poly p) s = .ok m (drawTerms p.body.arity (drawTypes p.named.length s)) := by
  rcases s.instantiate_poly_cases p with h | ⟨_, _, hfull⟩
  · rw [h, hm]
  · omega

/-- A polytype is opened as an equal one is, except that each variable becomes what its partner
becomes. -/
theorem opened_partner {q : Polytype} (hequal : (p == q) = true) :
    Monotype.StrictEq
      ((q.body.openedBy (termSupply.next s.terms q.body.arity)).subst fun v => .var (s.opening q v))
      ((p.body.openedBy (termSupply.next s.terms p.body.arity)).subst
        fun v => .var (s.opening q (p.partner q v))) := by
  have hbody := Polytype.subst_partner hequal (g := fun v => .var (s.opening q v)) fun v hv =>
    congrArg Monotype.var (opening_of_not_named fun h => hv (Polytype.mem_named.mp h).1)
  have harity : q.body.arity = p.body.arity := by
    rw [← Body.arity_subst, hbody.arity_eq, Body.arity_subst]
  rw [Body.subst_openedBy, Body.subst_openedBy, harity]
  exact hbody.openedBy _

/-- A variable that is not replaced is left alone in both polytypes. -/
theorem opening_partner_of_not_named {q : Polytype} (hequal : (p == q) = true)
    (hwildcards : p.WildcardsMatch q) (hv : v ∈ p.body.freeVariables) (hnamed : v ∉ p.named) :
    s.opening q (p.partner q v) = v := by
  obtain ⟨hiff, hself⟩ := named_partner hequal hwildcards hv
  exact (opening_of_not_named (mt hiff.mp hnamed)).trans (hself hnamed)

theorem created_opening_partner {q : Polytype} (hequal : (p == q) = true)
    (hwildcards : p.WildcardsMatch q) (hs' : s'.types.nextVar = s.types.nextVar + q.named.length)
    (hv : v ∈ p.body.freeVariables) (hnamed : v ∈ p.named) :
    s.Created s' (s.opening q (p.partner q v)) :=
  created_opening hs' ((named_partner hequal hwildcards hv).1.mpr hnamed)

/-- A permutation of the fresh variables leads from what the variables of the first body become to
what their partners become. -/
theorem exists_perm_opening {q : Polytype} {s₁ s₂ : Inference} (hequal : (p == q) = true)
    (hwildcards : p.WildcardsMatch q)
    (hs₁ : s₁.types.nextVar = s.types.nextVar + p.named.length)
    (hs₂ : s₂.types.nextVar = s.types.nextVar + q.named.length)
    (hfree : ∀ v, s.Created s₁ v ∨ s.Created s₂ v → v ∉ p.freeVariables) :
    ∃ π : Equiv.Perm TypeVariable,
      (∀ v ∈ p.body.freeVariables, π (s.opening p v) = s.opening q (p.partner q v)) ∧
      ∀ v, π v ≠ v → s.Created s₁ v ∨ s.Created s₂ v := by
  have hfreep : ∀ v, s.Created s₁ v → v ∉ p.freeVariables := fun v hv => hfree v (.inl hv)
  have hfreeq : ∀ v, s.Created s₂ v → v ∉ q.freeVariables := fun v hv hmem =>
    hfree v (.inr hv) (Polytype.mem_freeVariables_of_alphaEq (Polytype.alphaEq_symm hequal) hmem)
  have hmem : ∀ v ∈ p.body.freeVariables, p.partner q v ∈ q.body.freeVariables := fun v hv =>
    (Polytype.partner_place hequal hv).1
  -- both polytypes are opened by a one-to-one renaming of the variables of the first body
  refine exists_perm_of_new (fun v hv w hw => opening_inj hs₁ hfreep hv hw)
    (fun v hv w hw hsame => Polytype.partner_inj hequal hv hw
      (opening_inj hs₂ hfreeq (hmem v hv) (hmem w hw) hsame)) fun v hv => ?_
  by_cases hnamed : v ∈ p.named
  · exact .inl ⟨.inl (created_opening hs₁ hnamed),
      .inr (created_opening_partner hequal hwildcards hs₂ hv hnamed)⟩
  · exact .inr ⟨opening_of_not_named hnamed,
      opening_partner_of_not_named hequal hwildcards hv hnamed⟩

/-- **Equal polytypes are opened alike.** Each of two equal polytypes is opened unless a counter has
no room for the fresh variables it takes. If both are opened, if no fresh variable of either is one
that the polytypes have free, and if every `_` that is mentioned has itself for a partner, then a
permutation that moves fresh variables only makes the second type of the first. It takes the fresh
variables of the first type to fresh variables of the second, and these only. -/
theorem instantiate_respects_equality (s : Inference) (p q : Polytype) (hequal : (p == q) = true)
    (hwildcards : p.WildcardsMatch q) :
    (∀ r, r = p ∨ r = q → (∃ m s', instantiate (.poly r) s = .ok m s') ∨
      ∃ s', instantiate (.poly r) s = .error .overflow s' ∧
        (counterRange ≤ s.types.nextVar + r.named.length ∨
          counterRange ≤ s.terms.nextVar + r.body.arity)) ∧
    ∀ m n s₁ s₂, instantiate (.poly p) s = .ok m s₁ → instantiate (.poly q) s = .ok n s₂ →
      (∀ v, s.Created s₁ v ∨ s.Created s₂ v → v ∉ p.freeVariables) →
      ∃ π : Equiv.Perm TypeVariable,
        n.StrictEq (m.subst fun v => .var (π v)) ∧
        (∀ v, π v ≠ v → s.Created s₁ v ∨ s.Created s₂ v) ∧
        ∀ v ∈ m.occurrences, s.Created s₁ v ↔ s.Created s₂ (π v) := by
  refine ⟨fun r _ => ?_, fun m n s₁ s₂ hm hn hfree => ?_⟩
  · exact (s.instantiate_poly_cases r).imp_left fun h => ⟨_, _, h⟩
  · obtain ⟨rfl, hs₁⟩ := eq_of_instantiate_poly hm
    obtain ⟨rfl, hs₂⟩ := eq_of_instantiate_poly hn
    obtain ⟨π, hπ, hmoved⟩ := exists_perm_opening hequal hwildcards hs₁ hs₂ hfree
    refine ⟨π, ?_, hmoved, fun x hx => ?_⟩
    · have hrenamed : Monotype.subst (fun v => .var (s.opening q (p.partner q v)))
          (p.body.openedBy (termSupply.next s.terms p.body.arity)) =
            ((p.body.openedBy (termSupply.next s.terms p.body.arity)).subst fun v =>
              .var (s.opening p v)).subst fun v => .var (π v) := by
        rw [Monotype.subst_subst]
        exact Monotype.subst_congr fun v hv =>
          congrArg Monotype.var (hπ v (Body.mem_freeVariables_of_openedBy hv)).symm
      rw [← hrenamed]
      exact opened_partner hequal
    · obtain ⟨v, hv, hvar⟩ := Monotype.mem_occurrences_subst.mp hx
      obtain rfl := (Monotype.mem_occurrences_var _).mp hvar
      have hbody := Body.mem_freeVariables_of_openedBy hv
      rw [hπ v hbody]
      by_cases hnamed : v ∈ p.named
      · exact iff_of_true (created_opening hs₁ hnamed)
          (created_opening_partner hequal hwildcards hs₂ hbody hnamed)
      · rw [opening_of_not_named hnamed,
          opening_partner_of_not_named hequal hwildcards hbody hnamed]
        exact iff_of_false
          (not_created_of_not_named (fun w hw => hfree w (.inl hw)) hbody hnamed)
          (not_created_of_not_named (fun w hw => hfree w (.inr hw)) hbody hnamed)

/-- `forall _ a b . a -> b -> c` takes two fresh variables and the equal `forall d e f . e -> f -> c`
takes three. -/
theorem instantiate_respects_equality_of_skipped_binder :
    let s := Inference.startingAt 0 0
    let curried (u v w : String) : Polytype :=
      ⟨[⟨u, 0⟩, ⟨v, 0⟩, ⟨w, 0⟩], .mono (.arrow (.named v) (.arrow (.named w) (.named "c")))⟩
    let p := curried "_" "a" "b"
    let q := curried "d" "e" "f"
    let m : Monotype := .arrow (.named "$0") (.arrow (.named "$1") (.named "c"))
    let n : Monotype := .arrow (.named "$1") (.arrow (.named "$2") (.named "c"))
    (p == q) = true ∧ p.WildcardsMatch q ∧
      instantiate (.poly p) s = .ok m (drawTypes 2 s) ∧
      instantiate (.poly q) s = .ok n (drawTypes 3 s) ∧
      ∃ π : Equiv.Perm TypeVariable, n.StrictEq (m.subst fun v => .var (π v)) := by
  intro s curried p q m n
  have hequal : (p == q) = true := by decide +kernel
  have hwildcards : p.WildcardsMatch q := by
    show ∀ v ∈ p.body.freeVariables, _
    decide +kernel
  have hp : instantiate (.poly p) s = .ok m (drawTypes 2 s) :=
    instantiate_poly_of_room (by decide +kernel) (by decide +kernel) (by decide +kernel)
  have hq : instantiate (.poly q) s = .ok n (drawTypes 3 s) :=
    instantiate_poly_of_room (by decide +kernel) (by decide +kernel) (by decide +kernel)
  have hnew : ∀ k < 3, s.types.numbered k ∉ p.freeVariables := by decide +kernel
  have hfree : ∀ v, s.Created (drawTypes 2 s) v ∨ s.Created (drawTypes 3 s) v →
      v ∉ p.freeVariables := by
    rintro v (⟨k, -, hk, rfl⟩ | ⟨k, -, hk, rfl⟩)
    · exact hnew k (Nat.lt_trans hk (by decide))
    · exact hnew k hk
  obtain ⟨-, hrenamed⟩ := instantiate_respects_equality s p q hequal hwildcards
  obtain ⟨π, hπ, -, -⟩ := hrenamed m n _ _ hp hq hfree
  exact ⟨hequal, hwildcards, hp, hq, π, hπ⟩

/-- `forall _ . _` is equal to `forall a . a`, but only the second one takes a fresh variable. And a
client's own `$0` makes `$0 -> $0` of one polytype and `$1 -> $0` of an equal one. No renaming of
fresh variables leads from the one type to the other. -/
theorem instantiate_separates_equal_polytypes :
    let s := Inference.startingAt 0 0
    let unit (v : String) : Polytype := ⟨[⟨v, 0⟩], .mono (.named v)⟩
    let clash (v : String) : Polytype :=
      ⟨[⟨v, 0⟩, ⟨"a", 0⟩], .mono (.arrow (.named "a") (.named "$0"))⟩
    ((unit "_" == unit "a") = true ∧
      instantiate (.poly (unit "_")) s = .ok (.named "_") s ∧
      instantiate (.poly (unit "a")) s = .ok (.named "$0") (drawTypes 1 s) ∧
      ∀ π : Equiv.Perm TypeVariable,
        (∀ v, π v ≠ v → s.Created s v ∨ s.Created (drawTypes 1 s) v) →
        ¬(Monotype.named "$0").StrictEq ((Monotype.named "_").subst fun v => .var (π v))) ∧
    (clash "_" == clash "b") = true ∧
      instantiate (.poly (clash "_")) s =
        .ok (.arrow (.named "$0") (.named "$0")) (drawTypes 1 s) ∧
      instantiate (.poly (clash "b")) s =
        .ok (.arrow (.named "$1") (.named "$0")) (drawTypes 2 s) ∧
      ∀ π : Equiv.Perm TypeVariable, ¬(Monotype.arrow (.named "$1") (.named "$0")).StrictEq
        ((Monotype.arrow (.named "$0") (.named "$0")).subst fun v => .var (π v)) := by
  intro s unit clash
  refine ⟨⟨by decide +kernel, rfl,
    instantiate_poly_of_room (by decide +kernel) (by decide +kernel) (by decide +kernel),
    fun π hπ h => ?_⟩, by decide +kernel,
    instantiate_poly_of_room (by decide +kernel) (by decide +kernel) (by decide +kernel),
    instantiate_poly_of_room (by decide +kernel) (by decide +kernel) (by decide +kernel),
    fun π h => ?_⟩
  · have himage : π ⟨"_", 0⟩ = ⟨"$0", 0⟩ := (Monotype.var.inj h).symm
    have hmoved : π ⟨"_", 0⟩ ≠ ⟨"_", 0⟩ := by
      rw [himage]
      decide
    rcases hπ _ hmoved with hcreated | hcreated <;>
      exact absurd (not_isWildcard_of_created hcreated) (by decide)
  · rw [Monotype.subst_arrow] at h
    obtain ⟨hdomain, hcodomain⟩ := List.cons.inj (Monotype.app.inj h).2
    have hsame := hdomain.trans (List.cons.inj hcodomain).1.symm
    exact absurd hsame (by decide)

end Inference

end IndexedLambda
