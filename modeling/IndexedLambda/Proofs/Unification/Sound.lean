import IndexedLambda.Proofs.Unification.Reachable
/-!
# Soundness of unification

A run of unification that ends well makes the two types equal in shape. This is stated for models: in
every model of the classes that the run leaves, the two types have one shape. Resolving is such a
model, and it stays one in everything that comes later, because classes only grow.

`Ensures` says of a computation that it brings about a fact about models. The facts of steps that are
made one after the other add up, since a model of the last classes is a model of all earlier ones.
-/

namespace IndexedLambda.TypeContext

open Relation

/-- When the computation ends well, the classes have grown, and the fact holds in every model of
them. -/
def Ensures (x : ContextM Status) (fact : Reading → Prop) : Prop :=
  ∀ c d, c.known.Acyclic → x c = .ok .ok d →
    Grows .all c.known d.known ∧ ∀ r : Reading, r.Models id d.known → fact r

namespace Ensures

variable {x y : ContextM Status} {fact fact' : Reading → Prop}

theorem imp (hx : Ensures x fact) (h : ∀ r, fact r → fact' r) : Ensures x fact' := by
  intro c d hc hd
  obtain ⟨hgrows, hfact⟩ := hx c d hc hd
  exact ⟨hgrows, fun r hr => h r (hfact r hr)⟩

theorem andThen (hx : Ensures x fact) (hy : Ensures y fact') :
    Ensures (andThen x y) fun r => fact r ∧ fact' r := by
  intro c e hc he
  obtain ⟨d, hd, he⟩ := andThen_eq_ok.mp he
  obtain ⟨hgrows, hfact⟩ := hx c d hc hd
  obtain ⟨hgrows', hfact'⟩ := hy d e (hgrows.acyclic hc) he
  exact ⟨hgrows.trans hgrows', fun r hr => ⟨hfact r (Grows.models hgrows' hr), hfact' r hr⟩⟩

theorem pairwise {α : Type} {relate : α → α → ContextM Status} {fact : Reading → α → α → Prop}
    {as bs : List α} (hlength : as.length = bs.length)
    (h : ∀ a ∈ as, ∀ b ∈ bs, Ensures (relate a b) fun r => fact r a b) :
    Ensures (pairwise relate as bs) fun r => List.Forall₂ (fact r) as bs := by
  induction as generalizing bs with
  | nil =>
      obtain rfl : bs = [] := List.length_eq_zero_iff.mp hlength.symm
      intro c d _ hd
      cases hd
      exact ⟨.refl, fun _ _ => .nil⟩
  | cons a as ih =>
      cases bs with
      | nil => exact absurd hlength (by simp)
      | cons b bs =>
          have hrest := ih (Nat.succ.inj hlength) fun a' ha' b' hb' =>
            h a' (List.mem_cons_of_mem a ha') b' (List.mem_cons_of_mem b hb')
          rw [pairwise_cons]
          exact ((h a (by simp) b (by simp)).andThen hrest).imp fun r hr => .cons hr.1 hr.2

end Ensures

variable {natives : InstructionSet}

theorem unifyKind_ensures (n : Nat) (s t : Term) : Ensures (unifyKind natives n s t) fun r =>
    SameTerm natives (r.onTerm s) (r.onTerm t) := by
  intro c d hc hd
  have hgrows := grows_of_unifyKind hc hd
  refine ⟨hgrows, fun r hr => ?_⟩
  have hc' : r.Models id c.known := Grows.models hgrows hr
  have hfind : ∀ u, r.onTerm (c.findKind u) = r.onTerm u := fun u => hc'.onTerm_find hc u
  show SameTerm natives (r.onTerm s) (r.onTerm t)
  rw [← hfind s, ← hfind t]
  have hcase := kindCase natives n s t c
  rw [hd] at hcase
  cases hcase with
  | same step hsame => exact Or.inl (Reading.strictEq_onTerm hsame)
  | bind v u step hmeets =>
      have hv : r.onTerm (.var v) = r.onTerm u :=
        hr.term (by rw [known_withKind, known_noted, ClassMap.get?_bind, if_pos rfl])
      rcases hmeets.2 with ⟨hs, ht⟩ | ⟨ht, hs⟩
      · exact Or.inl (.of_eq (by rw [hs, ht, hv]))
      · exact Or.inl (.of_eq (by rw [hs, ht, hv]))
  | equal step hapart hconv =>
      rw [Reading.onTerm_of_ne_var hapart.left, Reading.onTerm_of_ne_var hapart.right]
      exact Or.inr ⟨hapart.left, hapart.right, n, hconv⟩

/-- Two types that are not variables have one shape if they fit together and their parts have been
unified. -/
theorem unifyParts_ensures {n : Nat} {a b : Monotype}
    (hunify : ∀ p q, Ensures (unify natives n p q) fun r =>
      SameShape natives (r.onType p) (r.onType q))
    (havar : a.isVariable = false) (hbvar : b.isVariable = false)
    (hname : a.headName = b.headName) (hparams : a.params.length = b.params.length)
    (hindex : (indexOf a).length = (indexOf b).length) :
    Ensures (unifyParts (unify natives n) (unifyKind natives n) a b) fun r =>
      SameShape natives (r.onType a) (r.onType b) := by
  have hpairs : Ensures (pairwise (unifyIndexWith (unify natives n) (unifyKind natives n))
      (indexOf a) (indexOf b)) fun r => List.Forall₂ (fun i j =>
        SameTerm natives (r.onTerm i.1) (r.onTerm j.1) ∧
          SameShape natives (r.onType i.2) (r.onType j.2)) (indexOf a) (indexOf b) :=
    .pairwise hindex fun i _ j _ => (unifyKind_ensures n i.1 j.1).andThen (hunify i.2 j.2)
  refine ((Ensures.pairwise hparams fun p _ q _ => hunify p q).andThen hpairs).imp ?_
  rintro r ⟨hps, hjs⟩
  refine .rigid (Reading.isVariable_onType havar) (Reading.isVariable_onType hbvar) ?_ ?_ ?_ ?_
  · rw [Reading.headName_onType havar, Reading.headName_onType hbvar, hname]
  · rw [Reading.params_onType havar, Reading.params_onType hbvar, List.forall₂_map_left_iff,
      List.forall₂_map_right_iff]
    exact hps
  · rw [Reading.indexOf_onType havar, Reading.indexOf_onType hbvar, List.forall₂_map_left_iff,
      List.forall₂_map_right_iff]
    exact hjs.imp fun _ _ h => h.1
  · rw [Reading.indexOf_onType havar, Reading.indexOf_onType hbvar, List.forall₂_map_left_iff,
      List.forall₂_map_right_iff]
    exact hjs.imp fun _ _ h => h.2

theorem unify_ensures (n : Nat) (a b : Monotype) : Ensures (unify natives n a b) fun r =>
    SameShape natives (r.onType a) (r.onType b) := by
  induction n generalizing a b with
  | zero => intro c d _ hd; cases hd
  | succ n ih =>
      intro c d hc hd
      have hgrows := grows_of_unify hc hd
      refine ⟨hgrows, fun r hr => ?_⟩
      have hc' : r.Models id c.known := Grows.models hgrows hr
      have hfind : ∀ m, r.onType (c.find m) = r.onType m := fun m => hc'.onType_find hc m
      show SameShape natives (r.onType a) (r.onType b)
      rw [← hfind a, ← hfind b]
      have hcase := unifyCase natives n a b c
      rw [hd] at hcase
      generalize hrun : EStateM.Result.ok Status.ok d = run at hcase
      cases hcase with
      | same step hsame => exact .of_strictEq (Reading.strictEq_onType hsame)
      | inside v m step => cases hrun
      | illegible m f => cases hrun
      | bind v m step hmeets hinside =>
          cases hrun
          have hv : r.onType (.var v) = r.onType m :=
            hr.type (by rw [known_withType, known_noted, ClassMap.get?_bind, if_pos rfl])
          rcases hmeets.2 with ⟨ha, hb⟩ | ⟨hb, ha⟩
          · rw [ha, hb, hv]; exact .refl _
          · rw [ha, hb, hv]; exact .refl _
      | clash status step _ _ hfailed => cases hrun; exact absurd rfl hfailed
      | parts step havar hbvar hname hparams hindex =>
          have hensures := unifyParts_ensures ih havar hbvar hname hparams hindex
          exact (hensures (c.noted step) d (by rwa [known_noted]) hrun.symm).2 r hr

/-- **Unification is sound.** One that ends well makes two types equal in shape, and they stay so:
whatever is done to the context afterwards, and however that ends, their resolved forms have one
shape. -/
theorem Reachable.unify_sound {c d : TypeContext} (h : Reachable (fun _ => True) c)
    {natives : InstructionSet} {n : Nat} {a b : Monotype} (hok : unify natives n a b c = .ok .ok d) :
    SameShape natives (d.resolve a) (d.resolve b) ∧
      ∀ e, ReflTransGen (Step fun _ => True) d e →
        SameShape natives (e.resolve a) (e.resolve b) := by
  have hc := h.acyclic
  obtain ⟨hgrows, hmodels⟩ := unify_ensures n a b c d hc hok
  have hd := hgrows.acyclic hc
  have hlater : ∀ e, ReflTransGen (Step fun _ => True) d e →
      SameShape natives (e.resolve a) (e.resolve b) := by
    intro e he
    have hgrows' := grows_of_steps hd he
    have hreading := (hgrows'.acyclic hd).reading_models
    have hshape : SameShape natives (e.known.reading.onType a) (e.known.reading.onType b) :=
      hmodels e.known.reading (Grows.models hgrows' hreading)
    rwa [Classes.reading_onType, Classes.reading_onType] at hshape
  exact ⟨hlater d .refl, hlater⟩

/-- `Vec a i ((λx.x) k)` and `Vec [b] k k` are unified by binding `a` and `i` and by comparing the last
two index terms. That they have one shape survives a later binding of `b` and a unification that
fails. -/
theorem unify_sound_of_instances :
    let natives : InstructionSet := fun _ _ => .fail none
    let ev : Evaluator := ⟨natives, 20⟩
    let nat : Monotype := .const (.plain "Nat")
    let b : Monotype := .var ⟨"b", 0⟩
    let k : Term := .const "k"
    let same : Term := .app (.abs [⟨"x", 1⟩] (.var ⟨"x", 1⟩)) k
    let left : Monotype := .inst (.plain "Vec") [.var ⟨"a", 0⟩] [(.var ⟨"i", 0⟩, nat), (same, nat)]
    let right : Monotype := .inst (.plain "Vec") [.list b] [(k, nat), (k, nat)]
    let c := startingAt 0 0
    let d := endOf (unify natives 20 left right c)
    let e := Operation.run (Operation.run d (.unify ev b nat)) (.unify ev b (.list nat))
    Reachable (fun _ => True) c ∧ unify natives 20 left right c = .ok .ok d ∧
      ReflTransGen (Step fun _ => True) d e ∧
      e.resolve left = .inst (.plain "Vec") [.list nat] [(k, nat), (same, nat)] ∧
      SameShape natives (d.resolve left) (d.resolve right) ∧
      SameShape natives (e.resolve left) (e.resolve right) := by
  intro natives ev nat b k same left right c d e
  have hc : Reachable (fun _ => True) c := ⟨0, 0, .refl⟩
  have hok : unify natives 20 left right c = .ok .ok d := rfl
  have he : ReflTransGen (Step fun _ => True) d e :=
    .tail (.single ⟨_, trivial, rfl⟩) ⟨_, trivial, rfl⟩
  have hsound := Reachable.unify_sound hc hok
  exact ⟨hc, hok, he, by decide, hsound.1, hsound.2 e he⟩

end IndexedLambda.TypeContext
