import IndexedLambda.Proofs.Unification.Growth
/-!
# Classes that are confined to a region

A region says which type variables and index terms may be mentioned at all. Classes are confined to
it if every variable they bind and everything they bind a variable to is in it. Nothing that is
looked up in such classes leads out of the region: neither a representative nor a resolved type. And
classes that grow within the region stay confined to it.
-/

namespace IndexedLambda

namespace Region

variable {R S : Region}

/-- Everything in the first region is in the second. -/
structure Sub (R S : Region) : Prop where
  types : ∀ v, R.types v → S.types v
  terms : ∀ t, R.terms t → S.terms t

theorem Holds.mono {m : Monotype} (h : R.Holds m) (hRS : R.Sub S) : S.Holds m :=
  ⟨fun v hv => hRS.types v (h.types v hv), fun t ht => hRS.terms t (h.terms t ht)⟩

theorem holds_var {v : TypeVariable} : R.Holds (.var v) ↔ R.types v := by
  constructor
  · intro h
    exact h.types v (by simp)
  · intro h
    refine ⟨fun w hw => ?_, fun t ht => absurd ht (by simp)⟩
    rw [Monotype.mem_occurrences_var] at hw
    exact hw ▸ h

theorem holds_app {head : TypeConstant} {params : List Monotype} :
    R.Holds (.app head params) ↔ ∀ p ∈ params, R.Holds p := by
  constructor
  · intro h p hp
    exact ⟨fun v hv => h.types v ((Monotype.mem_occurrences_app _ _).mpr ⟨p, hp, hv⟩),
      fun t ht => h.terms t (Monotype.mem_indexTerms_app.mpr ⟨p, hp, ht⟩)⟩
  · intro h
    constructor
    · intro v hv
      obtain ⟨p, hp, hv⟩ := (Monotype.mem_occurrences_app _ _).mp hv
      exact (h p hp).types v hv
    · intro t ht
      obtain ⟨p, hp, ht⟩ := Monotype.mem_indexTerms_app.mp ht
      exact (h p hp).terms t ht

theorem holds_inst {head : TypeConstant} {params : List Monotype}
    {index : List (Term × Monotype)} : R.Holds (.inst head params index) ↔
      (∀ p ∈ params, R.Holds p) ∧ ∀ j ∈ index, R.terms j.1 ∧ R.Holds j.2 := by
  constructor
  · intro h
    refine ⟨fun p hp => ⟨fun v hv => ?_, fun t ht => ?_⟩,
      fun j hj => ⟨?_, fun v hv => ?_, fun t ht => ?_⟩⟩
    · exact h.types v ((Monotype.mem_occurrences_inst _ _ _).mpr (Or.inl ⟨p, hp, hv⟩))
    · exact h.terms t (Monotype.mem_indexTerms_inst.mpr (Or.inl ⟨p, hp, ht⟩))
    · exact h.terms j.1 (Monotype.mem_indexTerms_inst.mpr (Or.inr ⟨j, hj, Or.inl rfl⟩))
    · exact h.types v ((Monotype.mem_occurrences_inst _ _ _).mpr (Or.inr ⟨j, hj, hv⟩))
    · exact h.terms t (Monotype.mem_indexTerms_inst.mpr (Or.inr ⟨j, hj, Or.inr ht⟩))
  · rintro ⟨hparams, hindex⟩
    constructor
    · intro v hv
      rcases (Monotype.mem_occurrences_inst _ _ _).mp hv with ⟨p, hp, hv⟩ | ⟨j, hj, hv⟩
      · exact (hparams p hp).types v hv
      · exact (hindex j hj).2.types v hv
    · intro t ht
      rcases Monotype.mem_indexTerms_inst.mp ht with ⟨p, hp, ht⟩ | ⟨j, hj, rfl | ht⟩
      · exact (hparams p hp).terms t ht
      · exact (hindex j hj).1
      · exact (hindex j hj).2.terms t ht

theorem holds_subst {m : Monotype} {σ : TypeVariable → Monotype} : R.Holds (m.subst σ) ↔
    (∀ v ∈ m.occurrences, R.Holds (σ v)) ∧ ∀ t ∈ m.indexTerms, R.terms t := by
  constructor
  · intro h
    refine ⟨fun v hv => ⟨fun w hw => ?_, fun t ht => ?_⟩, fun t ht => ?_⟩
    · exact h.types w (Monotype.mem_occurrences_subst.mpr ⟨v, hv, hw⟩)
    · exact h.terms t (Monotype.mem_indexTerms_subst.mpr (Or.inr ⟨v, hv, ht⟩))
    · exact h.terms t (Monotype.mem_indexTerms_subst.mpr (Or.inl ht))
  · rintro ⟨htypes, hterms⟩
    constructor
    · intro w hw
      obtain ⟨v, hv, hw⟩ := Monotype.mem_occurrences_subst.mp hw
      exact (htypes v hv).types w hw
    · intro t ht
      rcases Monotype.mem_indexTerms_subst.mp ht with ht | ⟨v, hv, ht⟩
      · exact hterms t ht
      · exact (htypes v hv).terms t ht

theorem Holds.subst {m : Monotype} (h : R.Holds m) {σ : TypeVariable → Monotype}
    (hσ : ∀ v ∈ m.occurrences, R.Holds (σ v)) : R.Holds (m.subst σ) :=
  holds_subst.mpr ⟨hσ, h.terms⟩

/-- What a type resolves to is in a region if what its variables and its index terms stand for is.
-/
theorem holds_resolve {c : Classes} {m : Monotype} : R.Holds (c.resolve m) ↔
    (∀ v ∈ m.occurrences, R.Holds (c.resolve (.var v))) ∧
      ∀ t ∈ m.indexTerms, R.terms (c.kinds.find t) := by
  rw [Classes.resolve_eq_subst, holds_subst]
  constructor
  · rintro ⟨htypes, hterms⟩
    exact ⟨fun v hv => htypes v (Monotype.mem_occurrences_mapIndex.mpr hv),
      fun t ht => hterms _ (Monotype.mem_indexTerms_mapIndex.mpr ⟨t, ht, rfl⟩)⟩
  · rintro ⟨htypes, hterms⟩
    refine ⟨fun v hv => htypes v (Monotype.mem_occurrences_mapIndex.mp hv), fun t ht => ?_⟩
    obtain ⟨u, hu, rfl⟩ := Monotype.mem_indexTerms_mapIndex.mp ht
    exact hterms u hu

end Region

namespace Classes

/-- Every variable that is bound, and everything that it is bound to, is in the region. -/
structure Confined (R : Region) (c : Classes) : Prop where
  type : ∀ {v m}, c.types.get? v.key = some m → R.types v ∧ R.Holds m
  kind : ∀ {v t}, c.kinds.get? v.key = some t → R.terms (.var v) ∧ R.terms t

namespace Confined

variable {R S : Region} {c d : Classes}

theorem mono (h : c.Confined R) (hRS : R.Sub S) : c.Confined S where
  type hget := ⟨hRS.types _ (h.type hget).1, (h.type hget).2.mono hRS⟩
  kind hget := ⟨hRS.terms _ (h.kind hget).1, hRS.terms _ (h.kind hget).2⟩

theorem find_kind (h : c.Confined R) (hc : c.Acyclic) {t : Term} (ht : R.terms t) :
    R.terms (c.kinds.find t) := by
  obtain ⟨rank, hrank⟩ := hc.kinds
  induction t using hrank.descends.walk_induction with
  | unbound t hnext => rwa [ClassMap.find_of_next?_none hnext]
  | bound t u hnext ih =>
      rw [ClassMap.find_of_next? hrank.descends hnext]
      cases t with
      | var v => exact ih (h.kind hnext).2
      | _ => cases hnext

theorem find_type (h : c.Confined R) (hc : c.Acyclic) {m : Monotype} (hm : R.Holds m) :
    R.Holds (c.types.find m) := by
  obtain ⟨rank, hrank⟩ := hc.types
  induction m using hrank.descends.walk_induction with
  | unbound m hnext => rwa [ClassMap.find_of_next?_none hnext]
  | bound m n hnext ih =>
      rw [ClassMap.find_of_next? hrank.descends hnext]
      cases m with
      | var v => exact ih (h.type hnext).2
      | _ => cases hnext

theorem resolve (h : c.Confined R) (hc : c.Acyclic) {m : Monotype} (hm : R.Holds m) :
    R.Holds (c.resolve m) := by
  have hvar : ∀ v, R.types v → R.Holds (c.resolve (.var v)) := by
    intro v hv
    induction v using hc.variable_induction with
    | unbound v hnone =>
        rw [resolve_var_of_none hnone]
        exact Region.holds_var.mpr hv
    | bound v n hget ih =>
        rw [hc.resolve_var_of_some hget]
        have hn := (h.type hget).2
        exact Region.holds_resolve.mpr
          ⟨fun w hw => ih w hw (hn.types w hw), fun t ht => h.find_kind hc (hn.terms t ht)⟩
  exact Region.holds_resolve.mpr
    ⟨fun v hv => hvar v (hm.types v hv), fun t ht => h.find_kind hc (hm.terms t ht)⟩

/-- What is left unbound of a type and its index terms is seen when it is resolved, and the rest was
bound before. -/
theorem holds_of_resolve (h : c.Confined R) {m : Monotype} (hm : R.Holds (c.resolve m)) :
    R.Holds m := by
  obtain ⟨htypes, hterms⟩ := Region.holds_resolve.mp hm
  constructor
  · intro w hw
    cases hget : c.types.get? w.key with
    | some n => exact (h.type hget).1
    | none =>
        have hw' := htypes w hw
        rw [resolve_var_of_none hget] at hw'
        exact Region.holds_var.mp hw'
  · intro t ht
    cases hnext : c.kinds.next? t with
    | some u =>
        cases t with
        | var v => exact (h.kind hnext).1
        | _ => cases hnext
    | none => exact ClassMap.find_of_next?_none hnext ▸ hterms t ht

theorem binds (h : c.Confined R) (hstep : Binds R c d) : d.Confined R := by
  cases hstep with
  | @type v m _ _ _ hv hm =>
      refine ⟨fun {u n} hget => ?_, h.kind⟩
      rw [ClassMap.get?_bind] at hget
      split at hget
      · rename_i hkey
        cases hget
        exact ⟨TypeVariable.key_injective hkey ▸ hv, h.holds_of_resolve hm⟩
      · exact h.type hget
  | @kind v t _ _ _ hv ht =>
      refine ⟨h.type, fun {u s} hget => ?_⟩
      rw [ClassMap.get?_bind] at hget
      split at hget
      · rename_i hkey
        cases hget
        exact ⟨Variable.key_injective hkey ▸ hv, ht⟩
      · exact h.kind hget

theorem grows (h : c.Confined R) (hgrows : Grows R c d) : d.Confined R := by
  induction hgrows with
  | refl => exact h
  | tail _ hstep ih => exact ih.binds hstep

end Confined

end Classes

end IndexedLambda
