import IndexedLambda.Proofs.Inference.Rules
/-!
# What generalisation may bind

Generalisation binds the variables of a resolved type that Γ does not mention, as the classes have
them. It looks for the free variables of Γ, and a binder `_` would hide a variable called `_` from
it. So the contexts described here never come to a variable of that name: Γ has ordinary types, and
the classes resolve no other variable to a type with `_` in it (`Inference.Tidy`).

In such a context generalisation gives the scheme that it should give (`generalize_scheme`), and
whatever a free variable of Γ is resolved to stays unbound (`Tidy.mem_environment`).
-/

namespace IndexedLambda

/-- The type variables that are not called `_`. -/
def Region.named : Region := ⟨fun v => v.isWildcard = false, fun _ => True⟩

theorem Monotype.Ordinary.holds {m : Monotype} (h : m.Ordinary) : Region.named.Holds m :=
  ⟨h.named, fun _ _ => trivial⟩

theorem Monotype.ordinary_var {v : TypeVariable} (hv : v.isWildcard = false) :
    (Monotype.var v).Ordinary := by
  refine ⟨rfl, fun w hw => ?_⟩
  rw [(mem_occurrences_var v).mp hw]
  exact hv

namespace TypeContext

variable {c d : TypeContext}

theorem resolve_of_isIndexFree {m : Monotype} (hm : m.isIndexFree = true) :
    c.resolve m = m.subst fun v => c.resolve (.var v) := by
  have h := Classes.resolve_eq_subst (c := c.known) m
  rw [Monotype.mapIndex_of_isIndexFree hm] at h
  exact h

/-- The context knows no dependent instance, and nothing but `_` itself is resolved to a type with
`_` in it. -/
structure Tidy (c : TypeContext) : Prop extends Plain c where
  named : ∀ v : TypeVariable, v.isWildcard = false → Region.named.Holds (c.resolve (.var v))

/-- The type has no dependent instance, and no variable called `_` once it is resolved. -/
structure Usable (c : TypeContext) (m : Monotype) : Prop where
  indexFree : m.isIndexFree = true
  named : Region.named.Holds (c.resolve m)

theorem tidy_startingAt (offset : Nat) (number : Int) : (startingAt offset number).Tidy where
  toPlain := Reachable.plain ⟨offset, number, .refl⟩
  named v hv := by
    show Region.named.Holds ((startingAt offset number).known.resolve (.var v))
    rw [Classes.resolve_var_of_none (by simp [startingAt])]
    exact (Monotype.ordinary_var hv).holds

/-- Only the classes count. -/
theorem Tidy.of_known (h : c.Tidy) (hknown : d.known = c.known) : d.Tidy where
  acyclic := hknown ▸ h.acyclic
  indexFree := hknown ▸ h.indexFree
  named v hv := by
    show Region.named.Holds (d.known.resolve (.var v))
    rw [hknown]
    exact h.named v hv

theorem Tidy.usable (h : c.Tidy) {m : Monotype} (hm : m.Ordinary) : c.Usable m := by
  refine ⟨hm.indexFree, fun w hw => ?_, fun _ _ => trivial⟩
  rw [resolve_of_isIndexFree hm.indexFree] at hw
  obtain ⟨v, hv, hwv⟩ := Monotype.mem_occurrences_subst.mp hw
  exact (h.named v (hm.named v hv)).types w hwv

namespace Usable

variable {m n : Monotype}

theorem resolve (h : c.Usable m) (hc : Plain c) : (c.resolve m).Ordinary :=
  ⟨throughout_resolve Monotype.pervasive_isIndexFree hc.indexFree.types h.indexFree, h.named.types⟩

theorem find (h : c.Usable m) (hc : Plain c) : c.Usable (c.find m) := by
  refine ⟨throughout_find hc.indexFree.types h.indexFree, ?_⟩
  show Region.named.Holds (c.known.resolve (c.known.types.find m))
  rw [hc.acyclic.resolve_find]
  exact h.named

theorem arrow (hm : c.Usable m) (hn : c.Usable n) : c.Usable (.arrow m n) := by
  have hfree : (Monotype.arrow m n).isIndexFree = true := by
    simp [Monotype.arrow, hm.indexFree, hn.indexFree]
  refine ⟨hfree, fun w hw => ?_, fun _ _ => trivial⟩
  have hresolve : c.resolve (.arrow m n) = .arrow (c.resolve m) (c.resolve n) := by
    rw [resolve_of_isIndexFree hfree, Monotype.subst_arrow, ← resolve_of_isIndexFree hm.indexFree,
      ← resolve_of_isIndexFree hn.indexFree]
  rw [hresolve] at hw
  simp only [Monotype.arrow, Monotype.mem_occurrences_app, List.mem_cons, List.not_mem_nil,
    or_false, exists_eq_or_imp, exists_eq_left] at hw
  exact hw.elim (hm.named.types w) (hn.named.types w)

theorem grows (h : c.Usable m) (hc : Plain c) (hd : Grows .named c.known d.known) : d.Usable m :=
  ⟨h.indexFree, hd.holds hc.acyclic h.named⟩

end Usable

/-- Unification of usable types keeps a context tidy, and binds no variable called `_`. -/
theorem Tidy.unify (h : c.Tidy) {natives : InstructionSet} {n : Nat} {a b : Monotype}
    {status : Status} (ha : c.Usable a) (hb : c.Usable b)
    (hrun : TypeContext.unify natives n a b c = .ok status d) :
    d.Tidy ∧ Grows .named c.known d.known := by
  have hplain : Plain (endOf (TypeContext.unify natives n a b c)) :=
    h.toPlain.unify natives n ha.indexFree hb.indexFree
  have hgrows : Grows .named c.known (endOf (TypeContext.unify natives n a b c)).known :=
    unify_grows n h.acyclic ha.named hb.named
  rw [hrun] at hplain hgrows
  exact ⟨⟨hplain, fun v hv => hgrows.holds h.acyclic (h.named v hv)⟩, hgrows⟩

end TypeContext

/-! ## The free variables of Γ -/

theorem SymbolTable.mem_judgments {table : SymbolTable} {x : String} {j : Judgment}
    (h : j ∈ table.bindings x) : j ∈ table.judgments := by
  unfold bindings at h
  cases hx : table.symbols[x]? with
  | none => rw [hx] at h; cases h
  | some js =>
      rw [hx] at h
      have hmem : (x, js) ∈ table.symbols.toList :=
        Std.ExtTreeMap.mem_toList_iff_getElem?_eq_some.mpr hx
      exact List.mem_flatMap.mpr ⟨(x, js), hmem, List.mem_reverse.mpr h⟩

/-- The free variables of an ordinary scheme are those of the type. -/
theorem Ty.mem_freeVariables {y : Ty} (hy : y.scheme.type.Ordinary) {v : TypeVariable}
    (hv : y.scheme.Free v) : v ∈ y.freeVariables := by
  obtain ⟨hoccurs, hbound⟩ := hv
  cases y with
  | bare b =>
      cases b with
      | mono m => exact Monotype.mem_freeVariables.mpr hoccurs
      | dependent d => cases hy.indexFree
  | poly p =>
      obtain ⟨binders, b⟩ := p
      cases b with
      | dependent d => cases hy.indexFree
      | mono m =>
          have hname : v.isWildcard = false := hy.named v hoccurs
          -- a variable that is not called `_` is bound by the scheme if the type binds it
          have hbinders : v ∉ binders := by
            intro hmem
            exact hbound (List.mem_filter.mpr ⟨hmem, by rw [hname]; rfl⟩)
          refine List.mem_filter.mpr ⟨Monotype.mem_freeVariables.mpr hoccurs, ?_⟩
          simpa using hbinders

namespace Inference

/-- Γ has ordinary types, and the classes lead to ordinary types. -/
structure Tidy (s : Inference) : Prop where
  types : s.types.Tidy
  symbols : ∀ x, ∀ j ∈ s.symbols.bindings x, j.type.scheme.type.Ordinary

variable {s s' : Inference}

/-- The context has the variables of whatever a free variable of Γ is resolved to. -/
theorem Tidy.mem_environment (h : s.Tidy) {x : String} {j : Judgment}
    (hj : j ∈ s.symbols.bindings x) {v w : TypeVariable} (hv : j.type.scheme.Free v)
    (hw : w ∈ (s.types.resolve (.var v)).occurrences) : w ∈ s.environment :=
  List.mem_flatMap.mpr ⟨j, SymbolTable.mem_judgments hj, List.mem_flatMap.mpr
    ⟨v, Ty.mem_freeVariables (h.symbols x j hj) hv, Monotype.mem_freeVariables.mpr hw⟩⟩

/-- A type without dependent instances is generalised as it is. -/
theorem generalize_of_isIndexFree {m : Monotype} (hm : (s.types.resolve m).isIndexFree = true) :
    s.generalize m =
      match (s.types.resolve m).freeVariables.filter fun v => !s.environment.contains v with
      | [] => ⟨[.wildcard], .mono (s.types.resolve m)⟩
      | vars => ⟨vars, .mono (s.types.resolve m)⟩ := by
  unfold generalize
  generalize s.types.resolve m = r at hm ⊢
  cases r with
  | inst head params index => cases hm
  | _ => rfl

/-- Generalisation binds exactly the variables that Γ does not mention. -/
theorem generalize_scheme {m : Monotype} (hm : (s.types.resolve m).Ordinary) :
    (s.generalize m).toType.scheme =
      ⟨(s.types.resolve m).freeVariables.filter fun v => !s.environment.contains v,
        s.types.resolve m⟩ := by
  rw [generalize_of_isIndexFree hm.indexFree]
  have hnamed : ∀ v ∈ (s.types.resolve m).freeVariables.filter fun v =>
      !s.environment.contains v, (!v.isWildcard) = true := by
    intro v hv
    rw [hm.named v (Monotype.mem_freeVariables.mp (List.mem_filter.mp hv).1)]
    rfl
  generalize ((s.types.resolve m).freeVariables.filter fun v =>
    !s.environment.contains v) = vars at hnamed ⊢
  cases vars with
  | nil => rfl
  | cons v vars =>
      show Scheme.mk ((v :: vars).filter fun v => !v.isWildcard) _ = _
      rw [List.filter_eq_self.mpr hnamed]
      rfl

end Inference

end IndexedLambda
