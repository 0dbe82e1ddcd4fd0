import IndexedLambda.Proofs.Inference.Sound
/-!
# Visible entries

In a derivation Γ is a list in which the first entry for a name counts. `Expr.Typed` asks of the
bound variables of a local definition that no entry has them free, whether it is visible or not. Γ
as a finite map has visible entries only, and then the rule asks for less (`Expr.HasType`).

Nothing new can be derived with the weaker rule (`Expr.hasType_iff_typed`). Bound variables can be
renamed away from the entries that are hidden, and whatever is derived stays derivable from any Γ
with at least the same instances (`Expr.HasType.typed_subst`).
-/

namespace IndexedLambda

/-! ## Types that are alike -/

namespace Monotype

theorem skeleton_subst (m : Monotype) (σ : TypeVariable → Monotype) :
    (m.subst σ).skeleton = m.skeleton.subst fun v => (σ v).skeleton := by
  induction m using Monotype.induction_on with
  | var v => rfl
  | const c => rfl
  | app head ps ih =>
      rw [subst_app, skeleton_app, skeleton_app, subst_app, List.map_map, List.map_map]
      exact congrArg _ (List.map_congr_left ih)
  | inst head ps js ihp ihj =>
      rw [subst_inst, skeleton_inst, skeleton_inst, subst_inst]
      simp only [List.map_map]
      congr 1
      · exact List.map_congr_left ihp
      · exact List.map_congr_left fun j hj => Prod.ext rfl (ihj j hj)

theorem mem_occurrences_skeleton {m : Monotype} {v : TypeVariable} :
    v ∈ m.skeleton.occurrences ↔ v ∈ m.occurrences := by
  induction m using Monotype.induction_on with
  | var w => rfl
  | const c => simp
  | app head ps ih => simpa using exists_congr fun p => and_congr_right (ih p)
  | inst head ps js ihp ihj =>
      simp only [skeleton_inst, mem_occurrences_inst, List.mem_map, exists_exists_and_eq_and]
      exact or_congr (exists_congr fun p => and_congr_right (ihp p))
        (exists_congr fun j => and_congr_right (ihj j))

theorem Alike.subst {m n : Monotype} (h : m.Alike n) (σ : TypeVariable → Monotype) :
    (m.subst σ).Alike (n.subst σ) := by
  rw [Alike, skeleton_subst, skeleton_subst, h]

theorem Alike.mem_occurrences {m n : Monotype} (h : m.Alike n) {v : TypeVariable} :
    v ∈ m.occurrences ↔ v ∈ n.occurrences := by
  rw [← mem_occurrences_skeleton, h, mem_occurrences_skeleton]

end Monotype

/-! ## Schemes with more instances -/

namespace Scheme

theorem covers_self (p : Scheme) : p.Covers p .var := by
  intro θ hθ hfree
  refine ⟨θ, hθ, Monotype.subst_congr fun v hv => ?_⟩
  by_cases hbound : v ∈ p.bound
  · rw [if_pos hbound]
  · rw [if_neg hbound, hfree v ⟨hv, hbound⟩]

/-- Without bound variables only the substitution counts. -/
theorem covers_of_unbound (a : Monotype) (σ : TypeVariable → Monotype) :
    Covers ⟨[], a.subst σ⟩ ⟨[], a⟩ σ := by
  intro θ _ hfree
  have hθ : a.subst θ = a.subst σ :=
    Monotype.subst_congr fun v hv => hfree v ⟨hv, List.not_mem_nil⟩
  rw [hθ]
  exact ⟨.var, fun _ => rfl, (Monotype.subst_eq_self fun v _ => if_neg List.not_mem_nil).symm⟩

/-- Every instance has all instances under a substitution. -/
theorem Covers.instance_subst {q p : Scheme} {σ : TypeVariable → Monotype} (h : q.Covers p σ)
    (hσ : ∀ v, (σ v).isIndexFree = true) {m : Monotype} (hm : p.Instance m) :
    q.Instance (m.subst σ) := by
  obtain ⟨τ, hτ, rfl⟩ := hm
  rw [Monotype.subst_subst]
  refine h _ (fun v => Monotype.isIndexFree_subst.mpr ⟨?_, fun w _ => hσ w⟩) fun v hv => ?_
  · split
    · exact hτ v
    · rfl
  · rw [if_neg hv.2]
    rfl

end Scheme

namespace Expr

/-- Every visible entry of the second context has one in the first, with at least the instances that
the substitution gives it. -/
def Supports (Γ' Γ : List (String × Scheme)) (σ : TypeVariable → Monotype) : Prop :=
  ∀ x p, Γ.lookup x = some p → ∃ q, Γ'.lookup x = some q ∧ q.Covers p σ

theorem Supports.cons {Γ' Γ : List (String × Scheme)} {σ : TypeVariable → Monotype}
    (h : Supports Γ' Γ σ) (x : String) {q p : Scheme} (hq : q.Covers p σ) :
    Supports ((x, q) :: Γ') ((x, p) :: Γ) σ := by
  intro y r hr
  rw [List.lookup_cons] at hr ⊢
  by_cases hy : y = x
  · rw [beq_iff_eq.mpr hy] at hr ⊢
    cases hr
    exact ⟨q, rfl, hq⟩
  · rw [beq_false_of_ne hy] at hr ⊢
    exact h y r hr

/-! ## The system for finite maps -/

/-- The declarative system in which only visible entries count. -/
inductive HasType : List (String × Scheme) → Expr → Monotype → Prop
  | name {Γ : List (String × Scheme)} {x : String} {p : Scheme} {m : Monotype} :
      Γ.lookup x = some p → p.Instance m → HasType Γ (.name x) m
  | app {Γ : List (String × Scheme)} {operator operand : Expr} {a b : Monotype} :
      HasType Γ operator (.arrow a b) → HasType Γ operand a → HasType Γ (.app operator operand) b
  | lam {Γ : List (String × Scheme)} {x : String} {body : Expr} {a b : Monotype} :
      a.isIndexFree = true → HasType ((x, ⟨[], a⟩) :: Γ) body b →
      HasType Γ (.lam x body) (.arrow a b)
  | letIn {Γ : List (String × Scheme)} {x : String} {bound body : Expr} {a b : Monotype}
      (vars : List TypeVariable) : HasType Γ bound a →
      (∀ v ∈ vars, ∀ y p, Γ.lookup y = some p → ¬p.Free v) →
      HasType ((x, ⟨vars, a⟩) :: Γ) body b → HasType Γ (.letIn x bound body) b
  | conv {Γ : List (String × Scheme)} {e : Expr} {m n : Monotype} :
      HasType Γ e m → m.Alike n → HasType Γ e n

namespace HasType

variable {Γ : List (String × Scheme)} {e : Expr} {m : Monotype}

/-- A substituted type is derived from every context that supports the substituted one, hidden
entries or not. -/
theorem typed_subst (h : HasType Γ e m) {Γ' : List (String × Scheme)} {σ : TypeVariable → Monotype}
    (hσ : ∀ v, (σ v).isIndexFree = true) (hΓ : Supports Γ' Γ σ) : Typed Γ' e (m.subst σ) := by
  induction h generalizing Γ' σ with
  | @name Γ x p m hx hm =>
      obtain ⟨q, hq, hcovers⟩ := hΓ x p hx
      exact .name hq (hcovers.instance_subst hσ hm)
  | app _ _ ih₀ ih₁ =>
      have hoperator := ih₀ hσ hΓ
      rw [Monotype.subst_arrow] at hoperator
      exact .app hoperator (ih₁ hσ hΓ)
  | @lam Γ x body a b ha _ ih =>
      rw [Monotype.subst_arrow]
      apply Typed.lam
      · exact Monotype.isIndexFree_subst.mpr ⟨ha, fun v _ => hσ v⟩
      · exact ih hσ (hΓ.cons x (Scheme.covers_of_unbound a σ))
  | @letIn Γ x bound body a b vars _ hvars _ ih₀ ih₁ =>
      -- the bound variables get names that no entry has, visible or not
      have hbound : Typed Γ' bound (Scheme.subst (mentioned Γ') σ ⟨vars, a⟩).type := by
        refine ih₀ (fun v => ?_) fun y p hy => ?_
        · unfold Scheme.substVar
          split
          · rfl
          · exact hσ v
        · obtain ⟨q, hq, hcovers⟩ := hΓ y p hy
          refine ⟨q, hq, hcovers.congr fun v hv => (if_neg fun hmem => ?_).symm⟩
          exact hvars v hmem y p hy hv
      refine .letIn _ hbound (fun v hv => ?_) (ih₁ hσ (hΓ.cons x (Scheme.covers_subst _ σ _)))
      exact not_free_of_not_mentioned (Scheme.not_mem_avoid hv)
  | conv _ halike ih => exact .conv (ih hσ hΓ) (halike.subst σ)

end HasType

theorem mem_of_lookup {Γ : List (String × Scheme)} {x : String} {p : Scheme}
    (h : Γ.lookup x = some p) : (x, p) ∈ Γ := by
  obtain ⟨before, after, rfl, -⟩ := List.lookup_eq_some_iff.mp h
  exact List.mem_append_right before List.mem_cons_self

/-- Hidden entries make no difference to what can be derived. -/
theorem hasType_iff_typed {Γ : List (String × Scheme)} {e : Expr} {m : Monotype} :
    HasType Γ e m ↔ Typed Γ e m := by
  constructor
  · intro h
    have hΓ : Supports Γ Γ .var := fun x p hx => ⟨p, hx, Scheme.covers_self p⟩
    have htyped : Typed Γ e (m.subst .var) := h.typed_subst (fun _ => rfl) hΓ
    rwa [Monotype.subst_eq_self fun _ _ => rfl] at htyped
  · intro h
    induction h with
    | name hx hm => exact .name hx hm
    | app _ _ ih₀ ih₁ => exact .app ih₀ ih₁
    | lam ha _ ih => exact .lam ha ih
    | letIn vars _ hvars _ ih₀ ih₁ =>
        exact .letIn vars ih₀ (fun v hv y p hy => hvars v hv (y, p) (mem_of_lookup hy)) ih₁
    | conv _ halike ih => exact .conv ih halike

end Expr

end IndexedLambda
