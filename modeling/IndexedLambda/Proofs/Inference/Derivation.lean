import IndexedLambda.Inference.Rule
import IndexedLambda.Proofs.Unification.Shape
/-!
# Expressions and their types

The inference rules are run one at a time. `Expr.infer` runs them for a whole expression, in the order
of a proof, and stops at the first rule that has no judgment to give.

`Expr.Typed` is the declarative system that the rules are to be measured by: derivations with type
schemes, in which nothing is fresh and nothing is unified. The types of a derivation are those without
dependent instances, and they are compared as unification compares them, so that it does not matter
how a constant is written (`Expr.Typed.conv`).

A scheme binds variables over a type. Substituting in a scheme renames its bound variables to unused
ones first, and the result has every instance that it should have (`Scheme.covers_subst`).
-/

namespace IndexedLambda

/-- A type over bound variables. -/
structure Scheme where
  bound : List TypeVariable
  type : Monotype

/-- The scheme of a type. The binder `_` binds nothing, so it is left out. -/
def Ty.scheme (y : Ty) : Scheme :=
  ⟨y.toPolytype.binders.filter fun v => !v.isWildcard, y.toPolytype.body.indexedBySelf⟩

namespace Scheme

/-- The type is the scheme's, with types without dependent instances for the bound variables. -/
def Instance (p : Scheme) (m : Monotype) : Prop :=
  ∃ τ : TypeVariable → Monotype, (∀ v, (τ v).isIndexFree = true) ∧
    m = p.type.subst fun v => if v ∈ p.bound then τ v else .var v

/-- The variable occurs in the scheme and is not bound there. -/
def Free (p : Scheme) (v : TypeVariable) : Prop := v ∈ p.type.occurrences ∧ v ∉ p.bound

/-! ## Unused variables -/

/-- A session number above those of all listed variables. -/
def beyond (taken : List TypeVariable) : Nat :=
  taken.foldr (fun v bound => max (v.context.toNat + 1) bound) 0

/-- The variables that belong to a session above those of all listed variables. -/
def unused (taken : List TypeVariable) (i : Nat) : TypeVariable := ⟨"t", ((beyond taken + i : Nat) : Int)⟩

theorem lt_beyond {taken : List TypeVariable} {v : TypeVariable} (h : v ∈ taken) :
    v.context.toNat < beyond taken := by
  induction taken with
  | nil => cases h
  | cons w taken ih =>
      rw [beyond, List.foldr_cons, ← beyond]
      rcases List.mem_cons.mp h with rfl | h
      · omega
      · have hlt := ih h
        omega

theorem unused_not_mem (taken : List TypeVariable) (i : Nat) : unused taken i ∉ taken := by
  intro h
  have hlt := lt_beyond h
  have hcontext : (unused taken i).context.toNat = beyond taken + i := rfl
  omega

theorem unused_inj {taken : List TypeVariable} {i j : Nat} (h : unused taken i = unused taken j) :
    i = j := by
  have hcontext : ((beyond taken + i : Nat) : Int) = ((beyond taken + j : Nat) : Int) :=
    congrArg TypeVariable.context h
  omega

/-! ## Substitution in a scheme -/

/-- The new name of a bound variable. -/
def rename (taken : List TypeVariable) (p : Scheme) (v : TypeVariable) : TypeVariable :=
  unused taken (p.bound.idxOf v)

/-- What a bound variable must not be called: the given variables and those that are put in for free
variables. -/
def taken (avoid : List TypeVariable) (σ : TypeVariable → Monotype) (p : Scheme) :
    List TypeVariable := avoid ++ p.type.occurrences.flatMap fun v => (σ v).occurrences

/-- What is put in for a variable: its new name if it is bound. -/
def substVar (avoid : List TypeVariable) (σ : TypeVariable → Monotype) (p : Scheme)
    (v : TypeVariable) : Monotype :=
  if v ∈ p.bound then .var (p.rename (p.taken avoid σ) v) else σ v

/-- Substitutes for the free variables, after the bound ones have been renamed. -/
def subst (avoid : List TypeVariable) (σ : TypeVariable → Monotype) (p : Scheme) : Scheme where
  bound := p.bound.map (p.rename (p.taken avoid σ))
  type := p.type.subst (p.substVar avoid σ)

/-- The scheme as the classes of a context have it. -/
def resolve (c : TypeContext) (p : Scheme) : Scheme := p.subst [] fun v => c.resolve (.var v)

/-- The first scheme has every instance that the second one has once its free variables are
substituted. -/
def Covers (q p : Scheme) (σ : TypeVariable → Monotype) : Prop :=
  ∀ θ : TypeVariable → Monotype, (∀ v, (θ v).isIndexFree = true) →
    (∀ v, p.Free v → θ v = σ v) → q.Instance (p.type.subst θ)

theorem rename_inj {taken : List TypeVariable} {p : Scheme} {v w : TypeVariable} (hv : v ∈ p.bound)
    (h : p.rename taken v = p.rename taken w) : v = w :=
  List.idxOf_inj hv |>.mp (unused_inj h)

/-- No variable that is put in is caught by a binder. -/
theorem not_mem_bound_subst {avoid : List TypeVariable} {σ : TypeVariable → Monotype} {p : Scheme}
    {v w : TypeVariable} (hv : v ∈ p.type.occurrences) (hw : w ∈ (σ v).occurrences) :
    w ∉ (p.subst avoid σ).bound := by
  intro h
  obtain ⟨u, -, rfl⟩ := List.mem_map.mp h
  exact unused_not_mem _ _ (List.mem_append_right _ (List.mem_flatMap.mpr ⟨v, hv, hw⟩))

/-- No variable that is to be avoided is bound. -/
theorem not_mem_avoid {avoid : List TypeVariable} {σ : TypeVariable → Monotype} {p : Scheme}
    {w : TypeVariable} (h : w ∈ (p.subst avoid σ).bound) : w ∉ avoid := by
  obtain ⟨u, -, rfl⟩ := List.mem_map.mp h
  exact fun hw => unused_not_mem _ _ (List.mem_append_left _ hw)

/-- The bound variable with a given new name. -/
def original (taken : List TypeVariable) (p : Scheme) (w : TypeVariable) : TypeVariable :=
  (p.bound.find? fun v => p.rename taken v = w).getD w

theorem original_rename {taken : List TypeVariable} {p : Scheme} {v : TypeVariable}
    (hv : v ∈ p.bound) : p.original taken (p.rename taken v) = v := by
  unfold original
  cases hfind : p.bound.find? fun u => p.rename taken u = p.rename taken v with
  | none => exact absurd (List.find?_eq_none.mp hfind v hv) (by simp)
  | some u =>
      have hu : p.rename taken u = p.rename taken v := by simpa using List.find?_some hfind
      exact rename_inj (List.mem_of_find?_eq_some hfind) hu

/-- Substituting in a scheme keeps all its instances. -/
theorem covers_subst (avoid : List TypeVariable) (σ : TypeVariable → Monotype) (p : Scheme) :
    (p.subst avoid σ).Covers p σ := by
  intro θ hθ hfree
  -- a renamed variable goes where the variable itself is to go
  refine ⟨fun w => θ (p.original (p.taken avoid σ) w), fun w => hθ _, ?_⟩
  rw [subst, Monotype.subst_subst]
  refine Monotype.subst_congr fun v hv => ?_
  by_cases hbound : v ∈ p.bound
  · rw [substVar, if_pos hbound, Monotype.subst_var, if_pos (List.mem_map_of_mem hbound)]
    show θ v = θ (p.original (p.taken avoid σ) (p.rename (p.taken avoid σ) v))
    rw [original_rename hbound]
  · rw [substVar, if_neg hbound, hfree v ⟨hv, hbound⟩]
    refine (Monotype.subst_eq_self fun w hw => ?_).symm
    exact if_neg (not_mem_bound_subst hv hw)

end Scheme

/-! ## Expressions -/

/-- Expressions over names. -/
inductive Expr where
  | name (x : String)
  | app (operator operand : Expr)
  | lam (x : String) (body : Expr)
  | letIn (x : String) (bound body : Expr)

namespace Expr

/-- Runs the rules for an expression in the order of a proof. It stops at the first conclusion that
has no judgment. -/
def infer (ev : Evaluator) : Expr → InferM Conclusion
  | name x => Inference.var x
  | app operator operand => do
    match ← operator.infer ev with
    | .failed status => return .failed status
    | .concluded j₀ =>
      match ← operand.infer ev with
      | .failed status => return .failed status
      | .concluded j₁ => Inference.app ev j₀ j₁
  | lam x body => do
    let premise ← Inference.abs x
    match ← body.infer ev with
    | .failed status => return .failed status
    | .concluded j => Inference.dischargeAbs premise j
  | letIn x bound body => do
    match ← bound.infer ev with
    | .failed status => return .failed status
    | .concluded j₀ =>
      let premise ← Inference.letIn x j₀
      match ← body.infer ev with
      | .failed status => return .failed status
      | .concluded j₁ => Inference.dischargeLet premise j₁

/-- The declarative system. The first entry for a name counts. -/
inductive Typed : List (String × Scheme) → Expr → Monotype → Prop
  | name {Γ : List (String × Scheme)} {x : String} {p : Scheme} {m : Monotype} :
      Γ.lookup x = some p → p.Instance m → Typed Γ (.name x) m
  | app {Γ : List (String × Scheme)} {operator operand : Expr} {a b : Monotype} :
      Typed Γ operator (.arrow a b) → Typed Γ operand a → Typed Γ (.app operator operand) b
  | lam {Γ : List (String × Scheme)} {x : String} {body : Expr} {a b : Monotype} :
      a.isIndexFree = true → Typed ((x, ⟨[], a⟩) :: Γ) body b →
      Typed Γ (.lam x body) (.arrow a b)
  | letIn {Γ : List (String × Scheme)} {x : String} {bound body : Expr} {a b : Monotype}
      (vars : List TypeVariable) : Typed Γ bound a →
      (∀ v ∈ vars, ∀ entry ∈ Γ, ¬entry.2.Free v) → Typed ((x, ⟨vars, a⟩) :: Γ) body b →
      Typed Γ (.letIn x bound body) b
  | conv {Γ : List (String × Scheme)} {e : Expr} {m n : Monotype} :
      Typed Γ e m → m.Alike n → Typed Γ e n

end Expr

end IndexedLambda
