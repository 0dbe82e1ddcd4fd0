import IndexedLambda.Proofs.Evaluation.Beta
import IndexedLambda.Proofs.Term.Composition
/-!
# Reduction of the operator spine

The spine of a term is reached from its root by following left operands. A spine is normal if no
abstraction stands in operator position on it. `Term.SpineStep` contracts the one redex a spine can have;
it is a beta step, and all other beta steps take place off the spine.

If any sequence of beta steps ends at a normal spine, then so do the steps of the spine alone
(`HaltsIn.of_reduces`), and a beta step anywhere does not make them more (`HaltsIn.reduces`). Both come
from parallel reduction: `Term.Par` contracts any of the redexes that a term has, and such a step is some
steps of the spine followed by a step off the spine (`Par.factors`). Redexes inside lists, instructions
and local definitions never come to a spine, so there `Term.Par` allows whole reductions.
-/

namespace IndexedLambda.Term

variable {ρ ρ' : Variable → Term} {t t' u u' l l' r r' body body' arg arg' : Term} {i k m n : Nat}

/-! ## Beta steps and substitution -/

/-- A beta step is kept by a substitution for free variables. -/
theorem Beta.substFreeAt (h : Beta t u) (i : Nat) :
    Beta (t.rewrite (substFreeAt ρ) i) (u.rewrite (substFreeAt ρ) i) := by
  induction h generalizing i with
  | contract v rest body arg =>
      rw [rewrite_wrap, instantiate_substFreeAt, rewrite_app, rewrite_abs, List.length_cons,
        Nat.add_comm rest.length, ← Nat.add_assoc]
      exact .contract v rest _ _
  | abs binders _ ih =>
      simp only [rewrite_abs]
      exact .abs binders (ih _)
  | operator r _ ih =>
      simp only [rewrite_app]
      exact .operator _ (ih i)
  | operand l _ ih =>
      simp only [rewrite_app]
      exact .operand _ (ih i)
  | elem before after _ ih =>
      simp only [rewrite_list, List.map_append, List.map_cons]
      exact .elem _ _ (ih i)
  | argument head before after _ ih =>
      simp only [rewrite_instr, List.map_append, List.map_cons]
      exact .argument head _ _ (ih i)
  | assignment form x b _ ih =>
      simp only [rewrite_define]
      exact .assignment form x _ (ih i)
  | scope form x a _ ih =>
      simp only [rewrite_define]
      exact .scope form x _ (ih i)
  | definition before after x b _ ih =>
      simp only [rewrite_recur, List.map_append, List.map_cons]
      exact .definition _ _ x _ (ih i)
  | block defs _ ih =>
      simp only [rewrite_recur]
      exact .block _ (ih i)

namespace Reduces

theorem operand (l : Term) (h : Reduces r r') : Reduces (.app l r) (.app l r') :=
  h.lift (Term.app l) fun _ _ => .operand l

theorem app (hl : Reduces l l') (hr : Reduces r r') : Reduces (.app l r) (.app l' r') :=
  (hl.operator r).trans (hr.operand l')

/-- The parts of a list are reduced one after the other; those before are done already. -/
theorem parts {f : List Term → Term}
    (hf : ∀ (before after : List Term) {t t' : Term}, Beta t t' →
      Beta (f (before ++ t :: after)) (f (before ++ t' :: after)))
    (before : List Term) {ts us : List Term} (h : List.Forall₂ Reduces ts us) :
    Reduces (f (before ++ ts)) (f (before ++ us)) := by
  induction h generalizing before with
  | nil => exact .refl
  | @cons t t' ts us ht _ ih =>
      have hfirst : Reduces (f (before ++ t :: ts)) (f (before ++ t' :: ts)) :=
        ht.lift (fun t => f (before ++ t :: ts)) fun _ _ => hf before ts
      exact hfirst.trans (by simpa using ih (before ++ [t']))

/-- Rewritings that put in terms one of which reduces to the other. -/
theorem rewrite {f g : Nat → Variable → Term} (h : ∀ j v, Reduces (f j v) (g j v)) (i : Nat)
    (t : Term) : Reduces (t.rewrite f i) (t.rewrite g i) := by
  induction t using induction_on generalizing i with
  | var v => simpa using h i v
  | abs binders body ih =>
      simp only [rewrite_abs]
      exact (ih _).abs binders
  | app l r ihl ihr =>
      simp only [rewrite_app]
      exact (ihl i).app (ihr i)
  | const c => simp only [rewrite_const, Relation.ReflTransGen.refl]
  | list elems ih =>
      simp only [rewrite_list]
      refine parts (fun before after => .elem before after) [] ?_
      exact List.forall₂_map_left_iff.mpr (List.forall₂_map_right_iff.mpr
        (List.forall₂_same.mpr fun t ht => ih t ht i))
  | instr head args ih =>
      simp only [rewrite_instr]
      refine parts (fun before after => .argument head before after) [] ?_
      exact List.forall₂_map_left_iff.mpr (List.forall₂_map_right_iff.mpr
        (List.forall₂_same.mpr fun t ht => ih t ht i))
  | define form x a b iha ihb =>
      simp only [rewrite_define]
      exact (iha i).define form x (ihb i)
  | recur defs b ihd ihb =>
      simp only [rewrite_recur]
      refine recur ?_ (ihb i)
      exact List.forall₂_map_left_iff.mpr (List.forall₂_map_right_iff.mpr
        (List.forall₂_same.mpr fun p hp => ⟨rfl, ihd p hp i⟩))

theorem substFreeAt (h : Reduces t u)
    (hρ : ∀ j v, Reduces (Term.substFreeAt ρ j v) (Term.substFreeAt ρ' j v)) (i : Nat) :
    Reduces (t.rewrite (Term.substFreeAt ρ) i) (u.rewrite (Term.substFreeAt ρ') i) :=
  (h.lift (Term.rewrite (Term.substFreeAt ρ) i) fun _ _ hstep => hstep.substFreeAt i).trans
    (rewrite hρ i u)

end Reduces

/-! ## The spine -/

def isAbs : Term → Bool
  | .abs _ _ => true
  | _ => false

theorem isAbs_eq_true : t.isAbs = true ↔ ∃ binders body, t = .abs binders body := by
  cases t <;> simp [isAbs]

/-- Without instructions, only abstractions take arguments. -/
theorem isApplicable_eq_isAbs {scope : List String} (ht : t.Respects .instructionFree scope) :
    t.isApplicable = t.isAbs := by
  cases t with
  | instr head args => exact absurd (respects_instr.mp ht).1 id
  | _ => rfl

/-- Following left operands from the root never reaches an abstraction in operator position. -/
def SpineNormal : Term → Prop
  | .app l _ => l.isAbs = false ∧ l.SpineNormal
  | _ => True

instance decidableSpineNormal : (t : Term) → Decidable t.SpineNormal
  | .app l _ => @instDecidableAnd _ _ _ (decidableSpineNormal l)
  | .var _ | .abs _ _ | .const _ | .list _ | .instr _ _ | .define _ _ _ _ | .recur _ _ =>
      inferInstanceAs (Decidable True)

/-- The contraction of the redex on the spine. -/
inductive SpineStep : Term → Term → Prop
  | contract (v : Variable) (rest : List Variable) (body arg : Term) :
      SpineStep (.app (.abs (v :: rest) body) arg) (wrap rest (body.instantiate rest.length arg))
  | operator {l l' : Term} (r : Term) : SpineStep l l' → SpineStep (.app l r) (.app l' r)

abbrev SpineSteps : Term → Term → Prop := Relation.ReflTransGen SpineStep

/-- Neither a variable nor an abstraction nor an application. No step of a spine comes from inside. -/
def Inert : Term → Prop
  | .var _ | .abs _ _ | .app _ _ => False
  | _ => True

/-- Contracts any of the redexes that are there, and reduces anything inside inert terms. -/
inductive Par : Term → Term → Prop
  | var (v : Variable) : Par (.var v) (.var v)
  | abs {body body' : Term} (binders : List Variable) : Par body body' →
      Par (.abs binders body) (.abs binders body')
  | app {l l' r r' : Term} : Par l l' → Par r r' → Par (.app l r) (.app l' r')
  | contract {body body' arg arg' : Term} (v : Variable) (rest : List Variable) : Par body body' →
      Par arg arg' →
      Par (.app (.abs (v :: rest) body) arg) (wrap rest (body'.instantiate rest.length arg'))
  | inert {t u : Term} : t.Inert → u.Inert → Reduces t u → Par t u

/-- A parallel step that leaves the spine as it is. -/
inductive OffSpine : Term → Term → Prop
  | var (v : Variable) : OffSpine (.var v) (.var v)
  | abs {body body' : Term} (binders : List Variable) : Par body body' →
      OffSpine (.abs binders body) (.abs binders body')
  | app {l l' r r' : Term} : OffSpine l l' → Par r r' → OffSpine (.app l r) (.app l' r')
  | inert {t u : Term} : t.Inert → u.Inert → Reduces t u → OffSpine t u

namespace SpineStep

theorem beta (h : SpineStep t u) : Beta t u := by
  induction h with
  | contract v rest body arg => exact .contract v rest body arg
  | operator r _ ih => exact .operator r ih

theorem substFreeAt (h : SpineStep t u) (i : Nat) :
    SpineStep (t.rewrite (substFreeAt ρ) i) (u.rewrite (substFreeAt ρ) i) := by
  induction h with
  | contract v rest body arg =>
      rw [rewrite_wrap, instantiate_substFreeAt, rewrite_app, rewrite_abs, List.length_cons,
        Nat.add_comm rest.length, ← Nat.add_assoc]
      exact .contract v rest _ _
  | operator r _ ih =>
      simp only [rewrite_app]
      exact .operator _ ih

/-- A spine has at most one redex. -/
theorem unique (h : SpineStep t u) (h' : SpineStep t u') : u = u' := by
  induction h generalizing u' with
  | contract v rest body arg =>
      cases h' with
      | contract => rfl
      | operator _ hl => cases hl
  | operator r hl ih =>
      cases h' with
      | contract => cases hl
      | operator _ hl' => rw [ih hl']

theorem not_spineNormal (h : SpineStep t u) : ¬ t.SpineNormal := by
  induction h with
  | contract v rest body arg =>
      intro hnormal
      cases hnormal.1
  | operator r _ ih =>
      intro hnormal
      exact ih hnormal.2

end SpineStep

theorem Inert.rewrite {visit : Nat → Variable → Term} (h : t.Inert) (i : Nat) :
    (t.rewrite visit i).Inert := by
  cases t with
  | var | abs | app => cases h
  | _ => simp [Inert]

theorem Inert.not_spineStep (h : t.Inert) : ¬ SpineStep t u := by
  intro hstep
  cases hstep <;> cases h

theorem Inert.isAbs_eq_false (h : t.Inert) : t.isAbs = false := by
  cases t with
  | abs => cases h
  | _ => rfl

theorem Inert.spineNormal (h : t.Inert) : t.SpineNormal := by
  cases t with
  | app => cases h
  | _ => trivial

/-! ## Parallel steps -/

namespace Par

theorem refl (t : Term) : Par t t := by
  induction t using induction_on with
  | var v => exact .var v
  | abs binders body ih => exact .abs binders ih
  | app l r ihl ihr => exact .app ihl ihr
  | _ => exact .inert trivial trivial .refl

theorem of_beta (h : Beta t u) : Par t u := by
  induction h with
  | contract v rest body arg => exact .contract v rest (refl body) (refl arg)
  | abs binders _ ih => exact .abs binders ih
  | operator r _ ih => exact .app ih (refl r)
  | operand l _ ih => exact .app (refl l) ih
  | elem before after h => exact .inert trivial trivial (.single (.elem before after h))
  | argument head before after h =>
      exact .inert trivial trivial (.single (.argument head before after h))
  | assignment form x b h => exact .inert trivial trivial (.single (.assignment form x b h))
  | scope form x a h => exact .inert trivial trivial (.single (.scope form x a h))
  | definition before after x b h =>
      exact .inert trivial trivial (.single (.definition before after x b h))
  | block defs h => exact .inert trivial trivial (.single (.block defs h))

theorem reduces (h : Par t u) : Reduces t u := by
  induction h with
  | var v => exact .refl
  | abs binders _ ih => exact ih.abs binders
  | app _ _ ihl ihr => exact ihl.app ihr
  | contract v rest _ _ ihb iha =>
      exact ((ihb.abs (v :: rest)).app iha).tail (.contract v rest _ _)
  | inert _ _ h => exact h

theorem wrap (rest : List Variable) (h : Par t u) : Par (wrap rest t) (Term.wrap rest u) := by
  cases rest with
  | nil => exact h
  | cons v rest => exact .abs (v :: rest) h

/-- Parallel steps are kept by substitutions that are related by parallel steps under any binders. -/
theorem rewrite (h : Par t u) (hρ : ∀ j v, Par (substFreeAt ρ j v) (substFreeAt ρ' j v)) (i : Nat) :
    Par (t.rewrite (substFreeAt ρ) i) (u.rewrite (substFreeAt ρ') i) := by
  induction h generalizing i with
  | var v =>
      simp only [rewrite_var]
      exact hρ i v
  | abs binders _ ih =>
      simp only [rewrite_abs]
      exact .abs binders (ih _)
  | app _ _ ihl ihr =>
      simp only [rewrite_app]
      exact .app (ihl i) (ihr i)
  | contract v rest _ _ ihb iha =>
      rw [rewrite_wrap, instantiate_substFreeAt, rewrite_app, rewrite_abs, List.length_cons,
        Nat.add_comm rest.length, ← Nat.add_assoc]
      exact .contract v rest (ihb _) (iha i)
  | inert ht hu h =>
      exact .inert (ht.rewrite i) (hu.rewrite i) (h.substFreeAt (fun j v => (hρ j v).reduces) i)

theorem raise (h : Par t u) (n : Nat) : Par (t.raise n) (u.raise n) := by
  rw [raise_eq_substFree, raise_eq_substFree]
  refine h.rewrite (fun j v => ?_) 0
  unfold Term.substFreeAt
  split
  · exact .var v
  · rw [raise_var]
    exact .var _

theorem substFreeAt (hρ : ∀ v, Par (ρ v) (ρ' v)) (h : Par t u) (i : Nat) :
    Par (t.rewrite (Term.substFreeAt ρ) i) (u.rewrite (Term.substFreeAt ρ') i) := by
  refine h.rewrite (fun j v => ?_) i
  unfold Term.substFreeAt
  split
  · exact .var v
  · exact (hρ _).raise j

theorem instantiate (hbody : Par body body') (harg : Par arg arg') (n : Nat) :
    Par (body.instantiate n arg) (body'.instantiate n arg') := by
  rw [instantiate_eq_substFreeAt, instantiate_eq_substFreeAt]
  refine substFreeAt (fun v => ?_) hbody n
  unfold opening
  split
  · exact harg
  · exact .var _

end Par

/-! ## Factorization -/

namespace OffSpine

/-- A normal spine cannot come from a redex that stays in place. -/
theorem spineNormal (h : OffSpine t u) (hu : u.SpineNormal) : t.SpineNormal := by
  induction h with
  | var | abs => trivial
  | @app l l' _ _ hl _ ih =>
      refine ⟨?_, ih hu.2⟩
      cases hl with
      | abs => cases hu.1
      | inert hl => exact hl.isAbs_eq_false
      | _ => rfl
  | inert ht => exact ht.spineNormal

/-- A step of the spine joins the parallel step before it. -/
theorem merge (h : OffSpine t u) (hstep : SpineStep u u') : Par t u' := by
  induction h generalizing u' with
  | var | abs => cases hstep
  | app hl hr ih =>
      cases hstep with
      | contract v rest body arg =>
          cases hl with
          | abs _ hbody => exact .contract v rest hbody hr
          | inert _ hu => cases hu
      | operator _ hl' => exact .app (ih hl') hr
  | inert _ hu => exact absurd hstep hu.not_spineStep

end OffSpine

/-- Some steps of the spine, then a parallel step off the spine. -/
def Factors (t u : Term) : Prop := ∃ w, SpineSteps t w ∧ OffSpine w u

namespace Factors

theorem app (hl : Factors l l') (hr : Par r r') : Factors (.app l r) (.app l' r') := by
  obtain ⟨w, hsteps, hoff⟩ := hl
  exact ⟨.app w r, hsteps.lift (Term.app · r) fun _ _ => .operator r, .app hoff hr⟩

theorem head (hstep : SpineSteps t t') (h : Factors t' u) : Factors t u := by
  obtain ⟨w, hsteps, hoff⟩ := h
  exact ⟨w, hstep.trans hsteps, hoff⟩

/-- An argument comes to the spine where the variable stood at its end. -/
theorem instantiate (hbody : OffSpine body body') (harg : Par arg arg') (h : Factors arg arg') :
    Factors (body.instantiate 0 arg) (body'.instantiate 0 arg') := by
  induction hbody with
  | var v =>
      rw [instantiate_eq_substFreeAt, instantiate_eq_substFreeAt, ← substFree, ← substFree,
        substFree_var, substFree_var]
      by_cases hv : v.depth = 1
      · rwa [opening_hit hv, opening_hit hv]
      · rw [opening_miss hv, opening_miss hv]
        exact ⟨_, .refl, .var _⟩
  | abs binders hbody =>
      rw [instantiate_abs, instantiate_abs]
      exact ⟨_, .refl, .abs binders (hbody.instantiate harg _)⟩
  | app _ hr ih => exact ih.app (hr.instantiate harg 0)
  | inert ht hu h =>
      exact ⟨_, .refl, .inert (ht.rewrite 0) (hu.rewrite 0)
        ((Par.inert ht hu h).instantiate harg 0).reduces⟩

end Factors

namespace Par

theorem factors (h : Par t u) : Factors t u := by
  induction h with
  | var v => exact ⟨_, .refl, .var v⟩
  | abs binders hbody => exact ⟨_, .refl, .abs binders hbody⟩
  | app _ hr ihl _ => exact ihl.app hr
  | @contract body body' arg arg' v rest hbody harg ihb iha =>
      refine Factors.head (.single (.contract v rest body arg)) ?_
      cases rest with
      | nil =>
          -- the steps of the body can be made with the argument in it
          obtain ⟨w, hsteps, hoff⟩ := ihb
          refine Factors.head (hsteps.lift (·.instantiate 0 arg) fun _ _ hstep => ?_)
            (.instantiate hoff harg iha)
          simp only [instantiate_eq_substFreeAt]
          exact hstep.substFreeAt 0
      | cons w rest => exact ⟨_, .refl, .abs _ (hbody.instantiate harg _)⟩
  | inert ht hu h => exact ⟨_, .refl, .inert ht hu h⟩

/-- A parallel step keeps a normal spine, and makes no abstraction of what is none. -/
theorem spineNormal (h : Par t u) (ht : t.SpineNormal) : u.SpineNormal ∧ u.isAbs = t.isAbs := by
  induction h with
  | var | abs => exact ⟨trivial, rfl⟩
  | app _ _ ihl _ =>
      obtain ⟨hnormal, habs⟩ := ihl ht.2
      exact ⟨⟨habs.trans ht.1, hnormal⟩, rfl⟩
  | contract => cases ht.1
  | inert ht' hu => exact ⟨hu.spineNormal, hu.isAbs_eq_false.trans ht'.isAbs_eq_false.symm⟩

/-- After a parallel step the redex of the spine is still there or has been contracted. -/
theorem follow (h : Par t u) (hstep : SpineStep t t') :
    ∃ u', (u = u' ∨ SpineStep u u') ∧ Par t' u' := by
  induction hstep generalizing u with
  | contract v rest body arg =>
      cases h with
      | app hl harg =>
          cases hl with
          | abs _ hbody =>
              exact ⟨_, .inr (.contract v rest _ _), (hbody.instantiate harg _).wrap rest⟩
          | inert hl => cases hl
      | contract _ _ hbody harg => exact ⟨_, .inl rfl, (hbody.instantiate harg _).wrap rest⟩
      | inert ht => cases ht
  | operator r hl ih =>
      cases h with
      | app hl' hr =>
          obtain ⟨w, hw, hpar⟩ := ih hl'
          refine ⟨.app w _, ?_, .app hpar hr⟩
          rcases hw with rfl | hw
          · exact .inl rfl
          · exact .inr (.operator _ hw)
      | contract => cases hl
      | inert ht => cases ht

end Par

/-! ## How many steps a spine takes -/

/-- After so many steps the spine is normal. -/
inductive HaltsIn : Nat → Term → Prop
  | done {t : Term} : t.SpineNormal → HaltsIn 0 t
  | step {k : Nat} {t u : Term} : SpineStep t u → HaltsIn k u → HaltsIn (k + 1) t

namespace HaltsIn

theorem pred (h : HaltsIn k t) (hstep : SpineStep t u) : ∃ m, k = m + 1 ∧ HaltsIn m u := by
  cases h with
  | done ht => exact absurd ht hstep.not_spineNormal
  | step hstep' h =>
      rw [hstep.unique hstep']
      exact ⟨_, rfl, h⟩

theorem unique (h : HaltsIn k t) (h' : HaltsIn m t) : k = m := by
  induction h generalizing m with
  | done ht =>
      cases h' with
      | done => rfl
      | step hstep => exact absurd ht hstep.not_spineNormal
  | step hstep _ ih =>
      obtain ⟨j, rfl, hj⟩ := h'.pred hstep
      rw [ih hj]

theorem par (h : HaltsIn k t) (hpar : Par t u) : ∃ m, m ≤ k ∧ HaltsIn m u := by
  induction h generalizing u with
  | done ht => exact ⟨0, Nat.le_refl 0, .done (hpar.spineNormal ht).1⟩
  | step hstep _ ih =>
      obtain ⟨u', hu, hpar'⟩ := hpar.follow hstep
      obtain ⟨m, hm, hhalts⟩ := ih hpar'
      rcases hu with rfl | hu
      · exact ⟨m, by omega, hhalts⟩
      · exact ⟨m + 1, by omega, .step hu hhalts⟩

/-- Beta steps anywhere do not make the steps of the spine more. -/
theorem reduces (h : HaltsIn k t) (hreduces : Reduces t u) : ∃ m, m ≤ k ∧ HaltsIn m u := by
  induction hreduces with
  | refl => exact ⟨k, Nat.le_refl k, h⟩
  | tail _ hstep ih =>
      obtain ⟨m, hm, hhalts⟩ := ih
      obtain ⟨j, hj, hhalts'⟩ := hhalts.par (.of_beta hstep)
      exact ⟨j, by omega, hhalts'⟩

theorem of_steps (hsteps : SpineSteps t u) (h : HaltsIn k u) : ∃ m, HaltsIn m t := by
  induction hsteps using Relation.ReflTransGen.head_induction_on with
  | refl => exact ⟨k, h⟩
  | head hstep _ ih =>
      obtain ⟨m, hm⟩ := ih
      exact ⟨m + 1, .step hstep hm⟩

/-- The induction is on the steps that are left after the parallel step: each of them is drawn into it,
once the steps that come before it have been made. -/
theorem of_par (h : HaltsIn k u) (hpar : Par t u) : ∃ m, HaltsIn m t := by
  induction h generalizing t with
  | done hu =>
      obtain ⟨w, hsteps, hoff⟩ := hpar.factors
      exact of_steps hsteps (.done (hoff.spineNormal hu))
  | step hstep _ ih =>
      obtain ⟨w, hsteps, hoff⟩ := hpar.factors
      obtain ⟨m, hm⟩ := ih (hoff.merge hstep)
      exact of_steps hsteps hm

/-- **The steps of the spine find a normal spine if any beta steps do.** -/
theorem of_reduces (hreduces : Reduces t u) (hu : u.SpineNormal) : ∃ m, HaltsIn m t := by
  induction hreduces using Relation.ReflTransGen.head_induction_on with
  | refl => exact ⟨0, .done hu⟩
  | head hstep _ ih =>
      obtain ⟨m, hm⟩ := ih
      exact hm.of_par (.of_beta hstep)

end HaltsIn

end IndexedLambda.Term
