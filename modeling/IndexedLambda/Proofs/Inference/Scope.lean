import IndexedLambda.Proofs.Inference.Derivation
import IndexedLambda.Proofs.Term.Displacement
/-!
# Scopes of expressions

An expression knows its bound things by name, and a term knows them by depth. `Expr.Elaborates` says
which terms an expression may become: an occurrence of a name is the variable of the innermost
abstraction that binds the name, unless a local definition of the name stands in between; then, and
when nothing binds the name, it is a constant.

The name of a local definition has its body for a scope. `Reach` leaves open whether the expression
that is defined belongs to the scope too. The two readings differ only where a definition hides a
parameter from its own expression, which `Expr.hidesParameter` finds out
(`Expr.Elaborates.body_iff`).

Abstractions are put around a finished term from the outside. `Expr.Elaborates.enclose` is the step:
constants are turned into the new variable and captured, and the term then elaborates the same
expression in a scope with one more binding at its outer end.
-/

namespace IndexedLambda

/-! ## What a name stands for -/

/-- A construct that binds a name. -/
inductive Binding where
  /-- An abstraction over the name. Its binder is called `binder` in the term. -/
  | lambda (name binder : String)
  /-- A local definition of the name. -/
  | definition (name : String)

def Binding.name : Binding → String
  | lambda name _ => name
  | definition name => name

/-- The binding constructs around a place, the innermost one first. -/
abbrev Scope := List Binding

namespace Scope

/-- How many binders of the term are around the place. -/
def depth : Scope → Nat
  | [] => 0
  | .lambda _ _ :: scope => depth scope + 1
  | .definition _ :: scope => depth scope

/-- The variable that a name stands for, if the innermost construct that binds it is an
abstraction. -/
def bound? (x : String) : Scope → Option Variable
  | [] => none
  | .lambda y binder :: scope =>
    if x = y then some ⟨binder, 1⟩ else (bound? x scope).map fun v => ⟨v.name, v.depth + 1⟩
  | .definition y :: scope => if x = y then none else bound? x scope

/-- The term that an occurrence of a name becomes. -/
def occurrence (scope : Scope) (x : String) : Term := (scope.bound? x).elim (.const x) .var

/-- The names that stand for a variable. -/
def params : Scope → List String
  | [] => []
  | .lambda x _ :: scope => x :: params scope
  | .definition x :: scope => (params scope).filter (· ≠ x)

theorem mem_params {scope : Scope} {x : String} : x ∈ scope.params ↔ scope.bound? x ≠ none := by
  induction scope with
  | nil => simp [params, bound?]
  | cons b scope ih =>
      cases b with
      | lambda y binder => by_cases h : x = y <;> simp [params, bound?, h, ih]
      | definition y => by_cases h : x = y <;> simp [params, bound?, h, ih]

/-- A variable of the scope points to one of its binders. -/
theorem depth_of_bound? {scope : Scope} {x : String} {v : Variable}
    (h : scope.bound? x = some v) : 1 ≤ v.depth ∧ v.depth ≤ scope.depth := by
  induction scope generalizing v with
  | nil => simp [bound?] at h
  | cons b scope ih =>
      cases b with
      | lambda y binder =>
          simp only [bound?] at h
          split at h
          · cases h
            simp [depth]
          · obtain ⟨w, hw, rfl⟩ := Option.map_eq_some_iff.mp h
            have := ih hw
            simp only [depth]
            omega
      | definition y =>
          simp only [bound?] at h
          split at h
          · cases h
          · exact ih h

/-- A binding at the outer end is not seen by names that are bound further in. -/
theorem bound?_append_of_mem {scope : Scope} {x : String} (hx : x ∈ scope.map Binding.name)
    (outer : Scope) : bound? x (scope ++ outer) = scope.bound? x := by
  induction scope with
  | nil => simp at hx
  | cons b scope ih =>
      cases b with
      | lambda y binder =>
          by_cases h : x = y
          · simp [bound?, h]
          · simp only [List.cons_append, bound?, if_neg h]
            rw [ih (by simpa [Binding.name, h] using hx)]
      | definition y =>
          by_cases h : x = y
          · simp [bound?, h]
          · simp only [List.cons_append, bound?, if_neg h]
            exact ih (by simpa [Binding.name, h] using hx)

theorem bound?_of_not_mem {scope : Scope} {x : String} (hx : x ∉ scope.map Binding.name) :
    scope.bound? x = none := by
  induction scope with
  | nil => rfl
  | cons b scope ih =>
      simp only [List.map_cons, List.mem_cons, not_or] at hx
      cases b with
      | lambda y binder => simp [bound?, show x ≠ y from hx.1, ih hx.2]
      | definition y => simp [bound?, show x ≠ y from hx.1, ih hx.2]

/-- A name that is bound and stands for a constant has been defined. -/
theorem definition_mem_of_bound? {scope : Scope} {x : String} (hx : x ∈ scope.map Binding.name)
    (h : scope.bound? x = none) : .definition x ∈ scope := by
  induction scope with
  | nil => simp at hx
  | cons b scope ih =>
      cases b with
      | lambda y binder =>
          by_cases hxy : x = y
          · simp [bound?, hxy] at h
          · simp only [bound?, if_neg hxy, Option.map_eq_none_iff] at h
            exact List.mem_cons_of_mem _ (ih (by simpa [Binding.name, hxy] using hx) h)
      | definition y =>
          by_cases hxy : x = y
          · simp [hxy]
          · simp only [bound?, if_neg hxy] at h
            exact List.mem_cons_of_mem _ (ih (by simpa [Binding.name, hxy] using hx) h)

/-- What an abstraction at the outer end means for a name. -/
theorem bound?_append_lambda {scope : Scope} {x : String} (hx : x ∉ scope.map Binding.name)
    (y binder : String) : bound? x (scope ++ [.lambda y binder]) =
      if x = y then some ⟨binder, scope.depth + 1⟩ else none := by
  induction scope with
  | nil => simp [bound?, depth]
  | cons b scope ih =>
      simp only [List.map_cons, List.mem_cons, not_or] at hx
      cases b with
      | lambda z w =>
          rw [List.cons_append, bound?, if_neg (show x ≠ z from hx.1), ih hx.2]
          split <;> simp [depth]
      | definition z =>
          rw [List.cons_append, bound?, if_neg (show x ≠ z from hx.1), ih hx.2]
          simp [depth]

/-- A definition at the outer end says what is true without it. -/
theorem bound?_append_definition (scope : Scope) (x y : String) :
    bound? x (scope ++ [.definition y]) = scope.bound? x := by
  induction scope with
  | nil => simp [bound?]
  | cons b scope ih =>
      cases b with
      | lambda z w => rw [List.cons_append, bound?, ih, bound?]
      | definition z => rw [List.cons_append, bound?, ih, bound?]

end Scope

/-! ## Capture and abstraction, part by part -/

namespace Term

variable {names : List String} {x binder : String} {j : Nat} {a b a' b' : Term}

/-- An occurrence that points to a binder stays when names are captured. -/
theorem capture_bound {v : Variable} (h : 1 ≤ v.depth) (hj : v.depth ≤ j) :
    (Term.var v).capture names j = .ok (.var v) := by
  have hcapture : v.capture names j = .ok v := if_pos ⟨by omega, hj⟩
  rw [capture, traverse, hcapture]
  rfl

/-- An unassigned occurrence of the only name is captured. -/
theorem capture_unassigned (h : j + 1 < wordRange) :
    (Term.var (.unassigned binder)).capture [binder] j = .ok (.var ⟨binder, j + 1⟩) := by
  have hdepth : binderDepth? binder [binder] = some 1 := by simp [binderDepth?]
  have hcapture : (Variable.unassigned binder).capture [binder] j = .ok ⟨binder, j + 1⟩ := by
    rw [Variable.capture, if_neg (by simp [Variable.unassigned])]
    simp only [Variable.unassigned, hdepth, addWord_exactly h]
    rfl
  rw [capture, traverse, hcapture]
  rfl

theorem capture_app (ha : a.capture names j = .ok a') (hb : b.capture names j = .ok b') :
    (Term.app a b).capture names j = .ok (.app a' b') := by
  unfold capture at ha hb ⊢
  rw [traverse, ha, hb]
  rfl

theorem capture_abs {v : Variable} (h : j + 1 < wordRange)
    (hb : b.capture names (j + 1) = .ok b') :
    (Term.abs [v] b).capture names j = .ok (.abs [v] b') := by
  unfold capture at hb ⊢
  rw [traverse, List.length_singleton, addWord_exactly h]
  show (do return Term.abs [v] (← traverse _ _ (j + 1) b)) = _
  rw [hb]
  rfl

theorem capture_define {form : LetForm} (ha : a.capture names j = .ok a')
    (hb : b.capture names j = .ok b') :
    (Term.define form x a b).capture names j = .ok (.define form x a' b') := by
  unfold capture at ha hb ⊢
  rw [traverse, ha, hb]
  rfl

theorem abstractConst_app {v : Variable} (ha : a.abstractConst x v = .ok a')
    (hb : b.abstractConst x v = .ok b') : (Term.app a b).abstractConst x v = .ok (.app a' b') := by
  rw [abstractConst, ha, hb]
  rfl

/-- An unassigned variable does not change on its way into an abstraction. -/
theorem abstractConst_abs {binders : List Variable}
    (hb : b.abstractConst x (.unassigned binder) = .ok b') :
    (Term.abs binders b).abstractConst x (.unassigned binder) = .ok (.abs binders b') := by
  have hshift : (Variable.unassigned binder).shift (.up binders.length) =
      .ok (.unassigned binder) := rfl
  rw [abstractConst, hshift]
  show (do return Term.abs binders (← b.abstractConst x (.unassigned binder))) = _
  rw [hb]
  rfl

theorem abstractConst_define {form : LetForm} {y : String} {v : Variable} (hy : y ≠ x)
    (ha : a.abstractConst x v = .ok a') (hb : b.abstractConst x v = .ok b') :
    (Term.define form y a b).abstractConst x v = .ok (.define form y a' b') := by
  rw [abstractConst, if_neg hy, ha, hb]
  rfl

end Term

/-! ## Elaboration -/

/-- Where the name of a local definition is in scope. -/
inductive Reach where
  /-- In the body alone. -/
  | body
  /-- In the body and in the expression that is defined. -/
  | everywhere
  deriving DecidableEq

/-- The scope of the expression that a local definition of the name defines. -/
def Reach.assignment (reach : Reach) (x : String) (scope : Scope) : Scope :=
  if reach = .everywhere then .definition x :: scope else scope

namespace Expr

/-- The term is the expression with all its names resolved. -/
inductive Elaborates (reach : Reach) : Scope → Expr → Term → Prop
  | name {scope : Scope} {x : String} : Elaborates reach scope (.name x) (scope.occurrence x)
  | app {scope : Scope} {operator operand : Expr} {l r : Term} :
      Elaborates reach scope operator l → Elaborates reach scope operand r →
      Elaborates reach scope (.app operator operand) (.app l r)
  | lam {scope : Scope} {x binder : String} {body : Expr} {t : Term} :
      Elaborates reach (.lambda x binder :: scope) body t →
      Elaborates reach scope (.lam x body) (.abs [⟨binder, 1⟩] t)
  | letIn {scope : Scope} {x : String} {bound body : Expr} {a b : Term} :
      Elaborates reach (reach.assignment x scope) bound a →
      Elaborates reach (.definition x :: scope) body b →
      Elaborates reach scope (.letIn x bound body) (.define .letIn x a b)

/-- Whether a name occurs in an expression and is not bound there. -/
def mentions (x : String) : Expr → Bool
  | name y => y == x
  | app operator operand => operator.mentions x || operand.mentions x
  | lam y body => y != x && body.mentions x
  | letIn y bound body => bound.mentions x || y != x && body.mentions x

/-- Whether some local definition has a name that stands for a parameter and is used in the very
expression that is defined. The list has the names that stand for a parameter outside. -/
def hidesParameter (params : List String) : Expr → Bool
  | name _ => false
  | app operator operand => operator.hidesParameter params || operand.hidesParameter params
  | lam x body => body.hidesParameter (x :: params)
  | letIn x bound body =>
    bound.mentions x && params.contains x || bound.hidesParameter params ||
      body.hidesParameter (params.filter (· ≠ x))

/-- How many abstractions lie inside one another. -/
def nesting : Expr → Nat
  | name _ => 0
  | app operator operand => max operator.nesting operand.nesting
  | lam _ body => body.nesting + 1
  | letIn _ bound body => max bound.nesting body.nesting

namespace Elaborates

variable {reach : Reach} {scope inner outer : Scope} {e : Expr} {t u : Term}

/-- Scopes that agree on the names of an expression elaborate it alike, unless a definition hides a
parameter. -/
theorem body_of_everywhere (h : Elaborates .everywhere inner e t)
    (hsame : ∀ x, e.mentions x = true → inner.bound? x = outer.bound? x)
    (hhides : e.hidesParameter outer.params = false) : Elaborates .body outer e t := by
  induction e generalizing inner outer t with
  | name x =>
      cases h
      have hx := hsame x (by simp [mentions])
      rw [Scope.occurrence, hx]
      exact .name
  | app operator operand ih₀ ih₁ =>
      simp only [hidesParameter, Bool.or_eq_false_iff] at hhides
      obtain ⟨⟩ | ⟨h₀, h₁⟩ := h
      refine .app (ih₀ h₀ (fun x hx => ?_) hhides.1) (ih₁ h₁ (fun x hx => ?_) hhides.2)
      · exact hsame x (by simp [mentions, hx])
      · exact hsame x (by simp [mentions, hx])
  | lam y body ih =>
      obtain ⟨⟩ | ⟨⟩ | ⟨h⟩ := h
      refine .lam (ih h (fun x hx => ?_) hhides)
      by_cases hxy : x = y
      · simp [Scope.bound?, hxy]
      · simp only [Scope.bound?, if_neg hxy]
        rw [hsame x (by simp [mentions, hx, Ne.symm hxy])]
  | letIn y bound body ih₀ ih₁ =>
      simp only [hidesParameter, Bool.or_eq_false_iff] at hhides
      obtain ⟨⟩ | ⟨⟩ | ⟨⟩ | ⟨h₀, h₁⟩ := h
      refine .letIn (ih₀ h₀ (fun x hx => ?_) hhides.1.2) (ih₁ h₁ (fun x hx => ?_) hhides.2)
      · by_cases hxy : x = y
        · -- the definition hides nothing, so that the name stood for a constant outside as well
          subst hxy
          have hnone : x ∉ outer.params := by simpa [hx] using hhides.1.1
          rw [Scope.mem_params, not_not] at hnone
          simp [Reach.assignment, Scope.bound?, hnone]
        · rw [Reach.assignment, if_pos rfl, Scope.bound?, if_neg hxy]
          exact hsame x (by simp [mentions, hx])
      · by_cases hxy : x = y
        · simp [Scope.bound?, hxy]
        · simp only [Scope.bound?, if_neg hxy]
          exact hsame x (by simp [mentions, hx, Ne.symm hxy])

/-- Where the two readings give one term no definition hides a parameter. A name of the expression
that stands for a constant in the inner scope does so in the outer one. -/
theorem not_hidesParameter (h : Elaborates .everywhere inner e t)
    (h' : Elaborates .body outer e t) :
    e.hidesParameter outer.params = false ∧
      ∀ x, e.mentions x = true → inner.bound? x = none → outer.bound? x = none := by
  induction e generalizing inner outer t with
  | name y =>
      refine ⟨rfl, fun x hx hnone => ?_⟩
      obtain rfl : y = x := by simpa [mentions] using hx
      cases h
      generalize hocc : inner.occurrence y = t at h'
      cases h'
      rw [Scope.occurrence, hnone, Scope.occurrence] at hocc
      cases hbound : outer.bound? y with
      | none => rfl
      | some v =>
          rw [hbound] at hocc
          exact absurd hocc (by simp)
  | app operator operand ih₀ ih₁ =>
      obtain ⟨⟩ | ⟨h₀, h₁⟩ := h
      obtain ⟨⟩ | ⟨h₀', h₁'⟩ := h'
      obtain ⟨hhides₀, hsame₀⟩ := ih₀ h₀ h₀'
      obtain ⟨hhides₁, hsame₁⟩ := ih₁ h₁ h₁'
      refine ⟨by simp [hidesParameter, hhides₀, hhides₁], fun x hx => ?_⟩
      simp only [mentions, Bool.or_eq_true] at hx
      exact hx.elim (hsame₀ x) (hsame₁ x)
  | lam y body ih =>
      obtain ⟨⟩ | ⟨⟩ | ⟨h⟩ := h
      obtain ⟨⟩ | ⟨⟩ | ⟨h'⟩ := h'
      obtain ⟨hhides, hsame⟩ := ih h h'
      refine ⟨hhides, fun x hx hnone => ?_⟩
      simp only [mentions, Bool.and_eq_true, bne_iff_ne] at hx
      have hx' := hsame x hx.2
      simp only [Scope.bound?, if_neg (Ne.symm hx.1), Option.map_eq_none_iff] at hx'
      exact hx' hnone
  | letIn y bound body ih₀ ih₁ =>
      obtain ⟨⟩ | ⟨⟩ | ⟨⟩ | ⟨h₀, h₁⟩ := h
      obtain ⟨⟩ | ⟨⟩ | ⟨⟩ | ⟨h₀', h₁'⟩ := h'
      obtain ⟨hhides₀, hsame₀⟩ := ih₀ h₀ h₀'
      obtain ⟨hhides₁, hsame₁⟩ := ih₁ h₁ h₁'
      -- in its own expression the name stands for a constant, so that it must do so outside
      have hown : bound.mentions y = true → outer.bound? y = none := by
        intro hy
        exact hsame₀ y hy (by simp [Reach.assignment, Scope.bound?])
      refine ⟨?_, fun x hx hnone => ?_⟩
      · have hy : (bound.mentions y && outer.params.contains y) = false := by
          cases hm : bound.mentions y with
          | false => rfl
          | true => simpa [Scope.mem_params] using hown hm
        simp only [hidesParameter, hy, Bool.false_or, Bool.or_eq_false_iff]
        exact ⟨hhides₀, hhides₁⟩
      · simp only [mentions, Bool.or_eq_true, Bool.and_eq_true, bne_iff_ne] at hx
        rcases hx with hx | ⟨hxy, hx⟩
        · by_cases hxy : x = y
          · exact hxy ▸ hown (hxy ▸ hx)
          · exact hsame₀ x hx (by simp [Reach.assignment, Scope.bound?, hxy, hnone])
        · have hx' := hsame₁ x hx
          simp only [Scope.bound?, if_neg (Ne.symm hxy)] at hx'
          exact hx' hnone

/-- The two readings of local definitions part where a definition hides a parameter, and nowhere
else. -/
theorem body_iff (h : Elaborates .everywhere scope e t) :
    Elaborates .body scope e t ↔ e.hidesParameter scope.params = false :=
  ⟨fun h' => (h.not_hidesParameter h').1,
    fun hhides => h.body_of_everywhere (fun _ _ => rfl) hhides⟩

/-! ## One more abstraction -/

theorem depth_assignment (x : String) : (reach.assignment x scope).depth = scope.depth := by
  cases reach <;> rfl

/-- Every occurrence in an elaborated term points to a binder, so there is nothing to capture. -/
theorem capture_eq_self (h : Elaborates reach scope e t) (names : List String)
    (hroom : scope.depth + e.nesting < wordRange) : t.capture names scope.depth = .ok t := by
  induction h with
  | @name scope x =>
      unfold Scope.occurrence
      cases hbound : scope.bound? x with
      | none => rfl
      | some v =>
          obtain ⟨hpos, hle⟩ := Scope.depth_of_bound? hbound
          exact Term.capture_bound hpos hle
  | app _ _ ih₀ ih₁ =>
      simp only [nesting] at hroom
      exact Term.capture_app (ih₀ (by omega)) (ih₁ (by omega))
  | lam _ ih =>
      simp only [nesting, Scope.depth] at hroom ih
      exact Term.capture_abs (by omega) (ih (by omega))
  | letIn _ _ ih₀ ih₁ =>
      simp only [nesting, Scope.depth, depth_assignment] at hroom ih₀ ih₁
      exact Term.capture_define (ih₀ (by omega)) (ih₁ (by omega))

/-- An abstraction around a name that is bound further in changes nothing. -/
theorem append_of_mem {x : String} (h : Elaborates reach scope e t)
    (hx : x ∈ scope.map Binding.name) (binder : String) :
    Elaborates reach (scope ++ [.lambda x binder]) e t := by
  induction h with
  | @name scope y =>
      have hsame : Scope.bound? y (scope ++ [.lambda x binder]) = scope.bound? y := by
        by_cases hy : y ∈ scope.map Binding.name
        · exact Scope.bound?_append_of_mem hy _
        · rw [Scope.bound?_append_lambda hy, if_neg (by rintro rfl; exact hy hx),
            Scope.bound?_of_not_mem hy]
      rw [Scope.occurrence, ← hsame]
      exact .name
  | app _ _ ih₀ ih₁ => exact .app (ih₀ hx) (ih₁ hx)
  | lam _ ih => exact .lam (ih (List.mem_cons_of_mem _ hx))
  | @letIn scope y bound body a b _ _ ih₀ ih₁ =>
      refine .letIn ?_ (ih₁ (List.mem_cons_of_mem _ hx))
      cases reach with
      | body => exact ih₀ hx
      | everywhere => exact ih₀ (List.mem_cons_of_mem _ hx)

/-- A definition around an expression changes nothing. -/
theorem append_definition (h : Elaborates reach scope e t) (x : String) :
    Elaborates reach (scope ++ [.definition x]) e t := by
  induction h with
  | @name scope y =>
      rw [Scope.occurrence, ← Scope.bound?_append_definition scope y x]
      exact .name
  | app _ _ ih₀ ih₁ => exact .app ih₀ ih₁
  | lam _ ih => exact .lam ih
  | letIn _ _ ih₀ ih₁ =>
      refine .letIn ?_ ih₁
      cases reach with
      | body => exact ih₀
      | everywhere => exact ih₀

/-- The step at one occurrence. -/
theorem enclose_occurrence {x : String} (hx : .definition x ∉ scope) (binder y : String)
    (hroom : scope.depth + 1 < wordRange) :
    ∃ u, (scope.occurrence y).abstractConst x (.unassigned binder) = .ok u ∧
      u.capture [binder] scope.depth =
        .ok (Scope.occurrence (scope ++ [.lambda x binder]) y) := by
  unfold Scope.occurrence
  by_cases hy : y ∈ scope.map Binding.name
  · rw [Scope.bound?_append_of_mem hy]
    cases hbound : scope.bound? y with
    | none =>
        have hyx : y ≠ x := by
          rintro rfl
          exact hx (Scope.definition_mem_of_bound? hy hbound)
        exact ⟨.const y, by simp [Term.abstractConst, hyx], rfl⟩
    | some v =>
        obtain ⟨hpos, hle⟩ := Scope.depth_of_bound? hbound
        exact ⟨.var v, rfl, Term.capture_bound hpos hle⟩
  · rw [Scope.bound?_append_lambda hy, Scope.bound?_of_not_mem hy]
    by_cases hyx : y = x
    · refine ⟨.var (.unassigned binder), by simp [Term.abstractConst, hyx], ?_⟩
      rw [if_pos hyx]
      exact Term.capture_unassigned hroom
    · refine ⟨.const y, by simp [Term.abstractConst, hyx], ?_⟩
      rw [if_neg hyx]
      rfl

/-- A parameter of an elaborated term becomes a variable: its constants are turned into an
unassigned variable, and this is captured by the binder that is put around the term. -/
theorem enclose {x : String} (h : Elaborates .everywhere scope e t) (hx : .definition x ∉ scope)
    (binder : String) (hroom : scope.depth + e.nesting + 1 < wordRange) :
    ∃ u t', t.abstractConst x (.unassigned binder) = .ok u ∧
      u.capture [binder] scope.depth = .ok t' ∧
      Elaborates .everywhere (scope ++ [.lambda x binder]) e t' := by
  induction h with
  | @name scope y =>
      obtain ⟨u, hu, hu'⟩ := enclose_occurrence hx binder y (by simpa [nesting] using hroom)
      exact ⟨u, _, hu, hu', .name⟩
  | app _ _ ih₀ ih₁ =>
      simp only [nesting] at hroom
      obtain ⟨l, l', hl, hl', h₀⟩ := ih₀ hx (by omega)
      obtain ⟨r, r', hr, hr', h₁⟩ := ih₁ hx (by omega)
      exact ⟨_, _, Term.abstractConst_app hl hr, Term.capture_app hl' hr', .app h₀ h₁⟩
  | lam _ ih =>
      simp only [nesting, Scope.depth] at hroom ih
      obtain ⟨b, b', hb, hb', h⟩ := ih (by simpa using hx) (by omega)
      exact ⟨_, _, Term.abstractConst_abs hb, Term.capture_abs (by omega) hb', .lam h⟩
  | @letIn scope y bound body a b h₀ h₁ ih₀ ih₁ =>
      simp only [nesting] at hroom
      by_cases hyx : y = x
      · -- the name is defined anew, so that the parameter is not seen in here
        subst hyx
        have hy : y ∈ (Binding.definition y :: scope).map Binding.name := List.mem_cons_self
        have ha : a.capture [binder] scope.depth = .ok a :=
          h₀.capture_eq_self [binder] (by simp only [depth_assignment]; omega)
        have hb : b.capture [binder] scope.depth = .ok b :=
          h₁.capture_eq_self [binder] (by simp only [Scope.depth]; omega)
        refine ⟨_, _, ?_, Term.capture_define ha hb,
          .letIn (h₀.append_of_mem hy binder) (h₁.append_of_mem hy binder)⟩
        rw [Term.abstractConst, if_pos rfl]
      · have hx' : Binding.definition x ∉ Binding.definition y :: scope := by
          simpa [Ne.symm hyx] using hx
        obtain ⟨a₀, a', ha, ha', h₀⟩ := ih₀ hx' (by simp only [depth_assignment]; omega)
        obtain ⟨b₀, b', hb, hb', h₁⟩ := ih₁ hx' (by simp only [Scope.depth]; omega)
        exact ⟨_, _, Term.abstractConst_define hyx ha hb, Term.capture_define ha' hb', .letIn h₀ h₁⟩

end Elaborates

end Expr

end IndexedLambda
