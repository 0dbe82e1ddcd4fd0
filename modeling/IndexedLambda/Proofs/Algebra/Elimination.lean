import IndexedLambda.Proofs.Algebra.StackBlind
import IndexedLambda.Proofs.Unification.Sound
import IndexedLambda.Proofs.Unification.Symmetry
/-!
# Eliminations and their typing equations

An elimination answers with the representative of a variable it has made, after one to three
unifications of which each may bind what the earlier ones have found. Its equation is therefore read
in the models of the final classes: every model of these is a model of the classes in between, so an
equation that one unification has established is still there at the end (`Establishes.bind`), and
after whatever comes later (`Establishes.resolved`).

`Establishes` has one lemma for each step of an elimination, and one for each elimination.
-/

namespace IndexedLambda

open Relation

namespace TypeContext

variable {α β : Type}

/-! ## Facts that an operation establishes -/

/-- When the operation gives a value, the classes have grown, and the fact about the value holds in
every model of them. -/
def Establishes (x : AlgebraM α) (fact : α → Reading → Prop) : Prop :=
  ∀ c a d, c.known.Acyclic → x c = .ok a d →
    Grows .all c.known d.known ∧ ∀ r : Reading, r.Models id d.known → fact a r

namespace Establishes

variable {x : AlgebraM α} {fact : α → Reading → Prop}

theorem imp {fact' : α → Reading → Prop} (hx : Establishes x fact)
    (h : ∀ a r, fact a r → fact' a r) : Establishes x fact' := by
  intro c a d hc hd
  obtain ⟨hgrows, hfact⟩ := hx c a d hc hd
  exact ⟨hgrows, fun r hr => h a r (hfact r hr)⟩

theorem bind {f : α → AlgebraM β} {fact' : α → β → Reading → Prop} (hx : Establishes x fact)
    (hf : ∀ a, Establishes (f a) (fact' a)) :
    Establishes (x >>= f) fun b r => ∃ a, fact a r ∧ fact' a b r := by
  intro c b e hc he
  obtain ⟨a, d, hd, he⟩ := Stateful.bind_eq_ok.mp he
  obtain ⟨hgrows, hfact⟩ := hx c a d hc hd
  obtain ⟨hgrows', hfact'⟩ := hf a d b e (hgrows.acyclic hc) he
  -- a model of the classes at the end is a model of those in between
  exact ⟨hgrows.trans hgrows', fun r hr => ⟨a, hfact r (Grows.models hgrows' hr), hfact' r hr⟩⟩

theorem fresh : Establishes TypeContext.fresh.toAlgebra fun _ _ => True := by
  intro c m d _ hd
  obtain ⟨v, e, hv, hd⟩ := Stateful.bind_eq_ok.mp (Algebra.toAlgebra_eq_ok.mp hd)
  cases hd
  have hknown := freshVar_known c
  rw [hv, endOf_ok] at hknown
  rw [hknown]
  exact ⟨.refl, fun _ _ => trivial⟩

theorem require (ev : Evaluator) (a b : Monotype) :
    Establishes (Algebra.require ev a b) fun _ r =>
      SameShape ev.natives (r.onType a) (r.onType b) := by
  intro c _ d hc hd
  exact unify_ensures ev.fuel a b c d hc (Algebra.unify_of_require hd)

theorem representative (m : Monotype) :
    Establishes (Algebra.representative m) fun n r => r.onType n = r.onType m := by
  intro c n d hc hd
  cases hd
  exact ⟨.refl, fun r hr => hr.onType_find hc m⟩

/-! ## The eliminations -/

theorem applyTypes (ev : Evaluator) (a b : Monotype) :
    Establishes (Algebra.applyTypes ev a b) fun m r =>
      SameShape ev.natives (r.onType a) (.arrow (r.onType b) (r.onType m)) := by
  refine imp (.bind .fresh fun v => .bind (.require ev a (.arrow b v)) fun _ =>
    .representative v) ?_
  rintro m r ⟨v, -, _, hshape, hm⟩
  rw [Monotype.arrow, Reading.onType_app] at hshape
  rw [hm]
  exact hshape

theorem projectBy (ev : Evaluator) (part : Monotype → Monotype → Monotype) (a : Monotype) :
    Establishes (Algebra.projectBy ev part a) fun m r => ∃ v w,
      SameShape ev.natives (r.onType a) (.pair (r.onType v) (r.onType w)) ∧
        r.onType m = r.onType (part v w) := by
  refine imp (.bind .fresh fun v => .bind .fresh fun w => .bind (.require ev a (.pair v w))
    fun _ => .representative (part v w)) ?_
  rintro m r ⟨v, -, w, -, _, hshape, hm⟩
  rw [Monotype.pair, Reading.onType_app] at hshape
  exact ⟨v, w, hshape, hm⟩

theorem head (ev : Evaluator) (a : Monotype) :
    Establishes (Algebra.head ev a) fun m r => ∃ t,
      SameShape ev.natives (r.onType a) (.pair (r.onType m) t) := by
  refine imp (projectBy ev (fun v _ => v) a) ?_
  rintro m r ⟨v, w, hshape, hm⟩
  exact ⟨r.onType w, hm ▸ hshape⟩

theorem tail (ev : Evaluator) (a : Monotype) :
    Establishes (Algebra.tail ev a) fun m r => ∃ t,
      SameShape ev.natives (r.onType a) (.pair t (r.onType m)) := by
  refine imp (projectBy ev (fun _ w => w) a) ?_
  rintro m r ⟨v, w, hshape, hm⟩
  exact ⟨r.onType v, hm ▸ hshape⟩

theorem realize (ev : Evaluator) (a b b' : Monotype) :
    Establishes (Algebra.realize ev a b b') fun m r => ∃ t t',
      SameShape ev.natives (r.onType a) (.union t t') ∧
        SameShape ev.natives (r.onType b) (.arrow t (r.onType m)) ∧
        SameShape ev.natives (r.onType b') (.arrow t' (r.onType m)) := by
  refine imp (.bind .fresh fun v => .bind .fresh fun w => .bind .fresh fun x =>
    .bind (.require ev a (.union v w)) fun _ => .bind (.require ev b (.arrow v x)) fun _ =>
      .bind (.require ev b' (.arrow w x)) fun _ => .representative x) ?_
  rintro m r ⟨v, -, w, -, x, -, _, hunion, _, hleft, _, hright, hm⟩
  rw [Monotype.union, Reading.onType_app] at hunion
  rw [Monotype.arrow, Reading.onType_app] at hleft hright
  rw [hm]
  exact ⟨r.onType v, r.onType w, hunion, hleft, hright⟩

/-- What an operation has established holds of the resolved types, then and later. -/
theorem resolved (hx : Establishes x fact) {allowed : Operation → Prop} {c d e : TypeContext}
    {a : α} (hc : Reachable allowed c) (hrun : x c = .ok a d)
    (he : ReflTransGen (Step fun _ => True) d e) : fact a e.known.reading := by
  obtain ⟨hgrows, hfact⟩ := hx c a d hc.acyclic hrun
  have hd := hgrows.acyclic hc.acyclic
  have hgrows' := grows_of_steps hd he
  exact hfact _ (Grows.models hgrows' (hgrows'.acyclic hd).reading_models)

end Establishes

end TypeContext

namespace Algebra

open TypeContext (Reachable Step Establishes)

/-- The property holds of a context and of all that can come after it. -/
def FromThenOn (d : TypeContext) (P : TypeContext → Prop) : Prop :=
  ∀ e, ReflTransGen (Step fun _ => True) d e → P e

/-- **Eliminations satisfy their typing equations.** When one gives `m`, its equation holds of `m` and
the types it was given, then and from then on: application, the two projections and case analysis. -/
theorem elimination_equations {c : TypeContext} (hc : Reachable (fun _ => True) c) (ev : Evaluator)
    (a b b' : Monotype) :
    (∀ m d, applyTypes ev a b c = .ok m d → FromThenOn d fun e =>
      SameShape ev.natives (e.resolve a) (.arrow (e.resolve b) (e.resolve m))) ∧
    (∀ m d, head ev a c = .ok m d → FromThenOn d fun e =>
      ∃ t, SameShape ev.natives (e.resolve a) (.pair (e.resolve m) t)) ∧
    (∀ m d, tail ev a c = .ok m d → FromThenOn d fun e =>
      ∃ t, SameShape ev.natives (e.resolve a) (.pair t (e.resolve m))) ∧
    ∀ m d, realize ev a b b' c = .ok m d → FromThenOn d fun e => ∃ t t',
      SameShape ev.natives (e.resolve a) (.union t t') ∧
        SameShape ev.natives (e.resolve b) (.arrow t (e.resolve m)) ∧
        SameShape ev.natives (e.resolve b') (.arrow t' (e.resolve m)) := by
  refine ⟨fun m d hrun e he => ?_, fun m d hrun e he => ?_, fun m d hrun e he => ?_,
    fun m d hrun e he => ?_⟩
  · simpa using (Establishes.applyTypes ev a b).resolved hc hrun he
  · simpa using (Establishes.head ev a).resolved hc hrun he
  · simpa using (Establishes.tail ev a).resolved hc hrun he
  · simpa using (Establishes.realize ev a b b').resolved hc hrun he

/-- Case analysis of `u`, which is `p | Nat`, with branches `Bool -> q` and `h`. It makes `p` `Bool`
and `h` a function from `Nat`, and a later binding of `q` changes the result of both branches. -/
theorem elimination_equations_of_choice :
    let natives : InstructionSet := fun _ _ => .fail none
    let ev : Evaluator := ⟨natives, 5⟩
    let nat : Monotype := .plain "Nat"
    let bool : Monotype := .plain "Bool"
    let u : Monotype := .named "u"
    let h : Monotype := .named "h"
    let left : Monotype := .arrow bool (.named "q")
    let c := Operation.run (.startingAt 0 0) (.unify ev u (.union (.named "p") nat))
    let d := Operation.run c (.realize ev u left h)
    let e := Operation.run d (.unify ev (.named "q") (.list nat))
    Reachable (fun _ => True) c ∧ realize ev u left h c = .ok (.var ⟨"$2", 0⟩) d ∧
      ReflTransGen (Step fun _ => True) d e ∧ e.resolve (.var ⟨"$2", 0⟩) = .list nat ∧
      e.resolve u = .union bool nat ∧ e.resolve h = .arrow nat (.list nat) ∧
      ∃ t t', SameShape natives (e.resolve u) (.union t t') ∧
        SameShape natives (e.resolve left) (.arrow t (.list nat)) ∧
        SameShape natives (e.resolve h) (.arrow t' (.list nat)) := by
  intro natives ev nat bool u h left c d e
  have hc : Reachable (fun _ => True) c := ⟨0, 0, .single ⟨_, trivial, rfl⟩⟩
  have hrun : realize ev u left h c = .ok (.var ⟨"$2", 0⟩) d :=
    eq_ok_of_run' (by decide +kernel)
  have he : ReflTransGen (Step fun _ => True) d e := .single ⟨_, trivial, rfl⟩
  have hm : e.resolve (.var ⟨"$2", 0⟩) = .list nat := by decide +kernel
  obtain ⟨t, t', hunion, hleft, hright⟩ :=
    (elimination_equations hc ev u left h).2.2.2 _ d hrun e he
  rw [hm] at hleft hright
  exact ⟨hc, hrun, he, hm, by decide +kernel, by decide +kernel, t, t', hunion, hleft, hright⟩

end Algebra

end IndexedLambda
