import IndexedLambda.Proofs.Evaluation.Comparison
import IndexedLambda.Proofs.Unification.Reachable
/-!
# Unification is symmetric

Unifying `a` with `b` and unifying `b` with `a` binds a pair of variables in opposite directions.
From there on the two runs choose different representatives, and so the contexts they leave are not
the same. What they have in common is which types they identify.

Classes are finer than others if the others put together all that they put together. Binding a
variable gives the least classes above the given ones in which the two sides are together
(`ClassMap.Joins.least`), in whichever direction the variable is bound. So two runs that start from
classes which are finer than each other (`SameClasses`) can be followed side by side. They find the
same representatives, up to variables, they pass the same occurs checks, and they decompose the same
types.
-/

namespace IndexedLambda

/-! ## Finer classes -/

namespace ClassMap

variable {α : Type} [Keyed α]

/-- Whatever the first map puts into one class, the second one does. -/
def Finer (c d : ClassMap α) : Prop := ∀ a, d.find (c.find a) = d.find a

namespace Finer

variable {c d e : ClassMap α}

theorem trans (h : c.Finer d) (h' : d.Finer e) : c.Finer e := by
  intro a
  calc e.find (c.find a) = e.find (d.find (c.find a)) := (h' _).symm
    _ = e.find (d.find a) := by rw [h a]
    _ = e.find a := h' a

/-- Values of one class stay in one class. -/
theorem find_eq (h : c.Finer d) {a b : α} (hab : c.find a = c.find b) : d.find a = d.find b := by
  rw [← h a, hab, h b]

end Finer

/-- The classes of two representatives have been joined: the first one is bound to the second. -/
structure Joins [DecidableEq α] (c d : ClassMap α) (v b : α) : Prop where
  find : ∀ a, d.find a = if c.find a = v then b else c.find a
  find_find : ∀ a, c.find (c.find a) = c.find a
  left : c.find v = v
  right : c.find b = b

namespace Joins

variable [DecidableEq α] {c d e : ClassMap α} {v b : α}

theorem finer (h : c.Joins d v b) : c.Finer d := by
  intro a
  rw [h.find, h.find, h.find_find]

theorem find_left (h : c.Joins d v b) : d.find v = b := by rw [h.find, if_pos h.left]

theorem find_right (h : c.Joins d v b) : d.find b = b := by
  rw [h.find, h.right]
  split <;> rfl

/-- Joining two classes does nothing more than putting them together. -/
theorem least (h : c.Joins d v b) (hce : c.Finer e) (hvb : e.find v = e.find b) : d.Finer e := by
  intro a
  rw [h.find]
  by_cases hav : c.find a = v
  · rw [if_pos hav, ← hvb, ← hav]
    exact hce a
  · rw [if_neg hav]
    exact hce a

end Joins

variable [LawfulKeyed α] [DecidableEq α] {c : ClassMap α} {rank rank' : α → Nat} {key : String}
  {v b : α}

/-- An unbound value that is bound to another representative joins its class. -/
theorem joins_bind (hc : c.Descends rank) (hd : (c.bind key b).Descends rank')
    (hkey : Keyed.key? v = some key) (hv : c.next? v = none) (hb : c.next? b = none) (hne : b ≠ v) :
    c.Joins (c.bind key b) v b := by
  have hother (x : α) (hx : x ≠ v) : (c.bind key b).next? x = c.next? x := next?_bind_of_ne hkey hx
  have hself : (c.bind key b).find v = b := by
    have hnext : (c.bind key b).next? v = some b := by
      rw [next?_eq_some]
      exact ⟨key, hkey, by rw [get?_bind, if_pos rfl]⟩
    rw [find_of_next? hd hnext]
    exact find_of_next?_none ((hother b hne).trans hb)
  refine ⟨fun a => ?_, find_find hc, find_of_next?_none hv, find_of_next?_none hb⟩
  induction a using hc.walk_induction with
  | unbound a ha =>
      rw [find_of_next?_none ha]
      by_cases hav : a = v
      · rw [if_pos hav, hav, hself]
      · rw [if_neg hav]
        exact find_of_next?_none ((hother a hav).trans ha)
  | bound a a' ha ih =>
      have hav : a ≠ v := by
        rintro rfl
        rw [hv] at ha
        cases ha
      rw [find_of_next? hd ((hother a hav).trans ha), find_of_next? hc ha]
      exact ih

end ClassMap

namespace Classes

/-- Whatever the first classes put together, the second ones do. -/
structure Finer (c d : Classes) : Prop where
  types : c.types.Finer d.types
  kinds : c.kinds.Finer d.kinds

variable {c d : Classes}

/-- Resolving in finer classes first makes no difference. -/
theorem Finer.resolve_resolve (h : Finer c d) (hc : c.Acyclic) (hd : d.Acyclic) (m : Monotype) :
    d.resolve (c.resolve m) = d.resolve m := by
  obtain ⟨rank, hrank⟩ := hc.types
  have hmodel : d.reading.Models id c := by
    constructor
    · intro v m hget
      have hfind : d.types.find (.var v) = d.types.find m :=
        h.types.find_eq (ClassMap.find_of_next? hrank.descends hget)
      show d.reading.type v = d.reading.onType m
      rw [reading_type, reading_onType, ← hd.resolve_find (.var v), hfind, hd.resolve_find]
    · intro v t hget
      show d.reading.onTerm (.var v) = d.reading.onTerm t
      rw [reading_onTerm, reading_onTerm]
      exact h.kinds.find_eq (hc.find_kind_of_some hget)
  have hread := hmodel.onType_resolve congruent_id hc m
  rwa [id, id, reading_onType, reading_onType] at hread

theorem Finer.resolve_eq (h : Finer c d) (hc : c.Acyclic) (hd : d.Acyclic) {m n : Monotype}
    (hmn : c.resolve m = c.resolve n) : d.resolve m = d.resolve n := by
  rw [← h.resolve_resolve hc hd m, hmn, h.resolve_resolve hc hd n]

theorem Finer.resolve_strictEq (h : Finer c d) (hc : c.Acyclic) (hd : d.Acyclic) {m n : Monotype}
    (hmn : (c.resolve m).StrictEq (c.resolve n)) : (d.resolve m).StrictEq (d.resolve n) := by
  rw [← h.resolve_resolve hc hd m, ← h.resolve_resolve hc hd n]
  exact d.resolve_strictEq hmn

end Classes

/-! ## The same classes -/

/-- A representative that is not a variable is the representative in coarser classes too. -/
theorem Classes.Finer.find_of_rigid {c d : Classes} (h : c.Finer d) {m : Monotype}
    (hm : (c.types.find m).isVariable = false) : d.types.find m = c.types.find m := by
  rw [← h.types m]
  exact ClassMap.find_rigid hm

theorem Classes.Finer.find_kind_of_rigid {c d : Classes} (h : c.Finer d) {t : Term}
    (ht : ∀ v, c.kinds.find t ≠ .var v) : d.kinds.find t = c.kinds.find t := by
  rw [← h.kinds t]
  refine ClassMap.find_of_next?_none ?_
  revert ht
  cases c.kinds.find t with
  | var v => exact fun ht => absurd rfl (ht v)
  | _ => exact fun _ => rfl

/-- Strictly equal representatives stay strictly equal in coarser classes: variables are the same
variable, and all others are the representatives there too. -/
theorem Classes.Finer.find_strictEq {c d : Classes} (h : c.Finer d) {a b : Monotype}
    (hab : (c.types.find a).StrictEq (c.types.find b)) :
    (d.types.find a).StrictEq (d.types.find b) := by
  cases ha : c.types.find a with
  | var v =>
      rw [ha] at hab
      have hb := Monotype.strictEq_var_iff.mp hab.symm
      exact .of_eq (h.types.find_eq (ha.trans hb.symm))
  | _ =>
      have hb : (c.types.find b).isVariable = false := by
        cases hb : c.types.find b with
        | var w =>
            rw [hb] at hab
            cases ha.symm.trans (Monotype.strictEq_var_iff.mp hab)
        | _ => rfl
      rw [h.find_of_rigid (by rw [ha]; rfl), h.find_of_rigid hb]
      exact hab

theorem Classes.Finer.find_kind_strictEq {c d : Classes} (h : c.Finer d) {s t : Term}
    (hst : (c.kinds.find s).StrictEq (c.kinds.find t)) :
    (d.kinds.find s).StrictEq (d.kinds.find t) := by
  by_cases hs : ∃ v, c.kinds.find s = .var v
  · obtain ⟨v, hs⟩ := hs
    rw [hs] at hst
    have ht := Term.strictEq_var_iff.mp hst.symm
    exact .of_eq (h.kinds.find_eq (hs.trans ht.symm))
  · have ht : ∀ v, c.kinds.find t ≠ .var v := fun v ht => hs ⟨v, Term.strictEq_var_iff.mp (ht ▸ hst)⟩
    rw [h.find_kind_of_rigid fun v hv => hs ⟨v, hv⟩, h.find_kind_of_rigid ht]
    exact hst

/-- The classes are the same up to the choice of representatives. -/
structure SameClasses (c d : Classes) : Prop where
  left : c.Acyclic
  right : d.Acyclic
  forth : c.Finer d
  back : d.Finer c

namespace SameClasses

variable {c d : Classes}

theorem refl (hc : c.Acyclic) : SameClasses c c := by
  obtain ⟨rank, hrank⟩ := hc.types
  obtain ⟨krank, hkrank⟩ := hc.kinds
  have hfiner : c.Finer c :=
    ⟨ClassMap.find_find hrank.descends, ClassMap.find_find hkrank.descends⟩
  exact ⟨hc, hc, hfiner, hfiner⟩

theorem symm (h : SameClasses c d) : SameClasses d c := ⟨h.right, h.left, h.back, h.forth⟩

theorem resolve_eq_iff (h : SameClasses c d) (m n : Monotype) :
    c.resolve m = c.resolve n ↔ d.resolve m = d.resolve n :=
  ⟨h.forth.resolve_eq h.left h.right, h.back.resolve_eq h.right h.left⟩

theorem resolve_strictEq_iff (h : SameClasses c d) (m n : Monotype) :
    (c.resolve m).StrictEq (c.resolve n) ↔ (d.resolve m).StrictEq (d.resolve n) :=
  ⟨h.forth.resolve_strictEq h.left h.right, h.back.resolve_strictEq h.right h.left⟩

theorem find_of_rigid (h : SameClasses c d) {m : Monotype}
    (hm : (c.types.find m).isVariable = false) : d.types.find m = c.types.find m :=
  h.forth.find_of_rigid hm

theorem find_kind_of_rigid (h : SameClasses c d) {t : Term} (ht : ∀ v, c.kinds.find t ≠ .var v) :
    d.kinds.find t = c.kinds.find t :=
  h.forth.find_kind_of_rigid ht

theorem isVariable_find (h : SameClasses c d) (m : Monotype) :
    (c.types.find m).isVariable = (d.types.find m).isVariable := by
  cases hm : (c.types.find m).isVariable with
  | false => rw [h.find_of_rigid hm, hm]
  | true =>
      cases hm' : (d.types.find m).isVariable with
      | false => rw [h.symm.find_of_rigid hm', hm'] at hm; cases hm
      | true => rfl

/-- A representative can be written in both classes or in none. -/
theorem find_legible (h : SameClasses c d) {m : Monotype} (hm : (c.types.find m).Legible) :
    (d.types.find m).Legible := by
  cases hvar : (c.types.find m).isVariable with
  | false => rwa [h.find_of_rigid hvar]
  | true =>
      rw [h.isVariable_find] at hvar
      revert hvar
      cases d.types.find m with
      | var w => exact fun _ => Monotype.legible_var
      | _ => exact fun hvar => by cases hvar

end SameClasses

/-! ## Joining the same two classes -/

namespace TypeContext

/-- The two sides of the pair are in one class once the variable is bound. -/
theorem Meets.find_eq {α : Type} [Keyed α] [DecidableEq α] {c d : ClassMap α} {v b s t : α}
    (hmeets : Meets v b (c.find s) (c.find t)) (hd : c.Joins d v b) : d.find s = d.find t := by
  obtain ⟨-, ⟨hv, hb⟩ | ⟨hv, hb⟩⟩ := hmeets
  · rw [← hd.finer s, ← hd.finer t, hv, hb, hd.find_left, hd.find_right]
  · rw [← hd.finer s, ← hd.finer t, hv, hb, hd.find_left, hd.find_right]

/-- It does not matter which side of the pair is bound to the other one. -/
theorem Meets.finer {α : Type} [Keyed α] [DecidableEq α] {c c' d d' : ClassMap α}
    {v b w u s t : α} (h : c.Finer d) (hc : c.Joins c' v b) (hd : d.Joins d' w u)
    (hmeets : Meets v b (c.find s) (c.find t)) (hmeets' : Meets w u (d.find t) (d.find s)) :
    c'.Finer d' := by
  have hcd' : c.Finer d' := h.trans hd.finer
  have hone : d'.find s = d'.find t := (hmeets'.find_eq hd).symm
  refine hc.least hcd' ?_
  obtain ⟨-, ⟨rfl, rfl⟩ | ⟨rfl, rfl⟩⟩ := hmeets
  · rw [hcd' s, hcd' t, hone]
  · rw [hcd' s, hcd' t, hone]

/-- What holds of both sides of the pair holds of the variable and of the other side. -/
theorem Meets.both {α : Type} {u o l r : α} {P : α → Prop} (h : Meets u o l r) (hl : P l)
    (hr : P r) : P u ∧ P o := by
  obtain ⟨-, ⟨rfl, rfl⟩ | ⟨rfl, rfl⟩⟩ := h
  · exact ⟨hl, hr⟩
  · exact ⟨hr, hl⟩

section Joins

variable {c : TypeContext}

theorem Meets.joins_type {a b m : Monotype} {v : TypeVariable} (hc : c.known.Acyclic)
    (hmeets : Meets (.var v) m (c.find a) (c.find b))
    (hinside : (c.resolve m).hasInside v = false) :
    (c.withType v m).known.Acyclic ∧
      c.known.types.Joins (c.withType v m).known.types (.var v) m := by
  have hbinds := hmeets.binds_type hc (Region.all_holds _) (Region.all_holds _) hinside
  have hc' := hbinds.acyclic hc
  obtain ⟨rank, hrank⟩ := hc.types
  obtain ⟨rank', hrank'⟩ := hc'.types
  obtain ⟨hv, hm⟩ := hmeets.both (P := fun m => c.known.types.next? m = none)
    (hc.next?_find_type a) (hc.next?_find_type b)
  exact ⟨hc', ClassMap.joins_bind hrank.descends hrank'.descends rfl hv hm hmeets.1⟩

theorem Meets.joins_kind {s t u : Term} {v : Variable} (hc : c.known.Acyclic)
    (hmeets : Meets (.var v) u (c.findKind s) (c.findKind t)) :
    (c.withKind v u).known.Acyclic ∧
      c.known.kinds.Joins (c.withKind v u).known.kinds (.var v) u := by
  have hbinds := hmeets.binds_kind (R := .all) hc trivial trivial
  have hc' := hbinds.acyclic hc
  obtain ⟨rank, hrank⟩ := hc.kinds
  obtain ⟨rank', hrank'⟩ := hc'.kinds
  obtain ⟨hv, hu⟩ := hmeets.both (P := fun t => c.known.kinds.next? t = none)
    (hc.next?_find_kind s) (hc.next?_find_kind t)
  exact ⟨hc', ClassMap.joins_bind hrank.descends hrank'.descends rfl hv hu hmeets.1⟩

end Joins

end TypeContext

namespace SameClasses

open TypeContext

variable {c d : TypeContext}

theorem noted (h : SameClasses c.known d.known) (step step' : Nat → UnifyStep) :
    SameClasses (c.noted step).known (d.noted step').known := by
  rw [known_noted, known_noted]
  exact h

/-- The same two classes of types are joined. -/
theorem bind_type (h : SameClasses c.known d.known) {a b m n : Monotype} {v w : TypeVariable}
    (hmeets : Meets (.var v) m (c.find a) (c.find b))
    (hinside : (c.resolve m).hasInside v = false)
    (hmeets' : Meets (.var w) n (d.find b) (d.find a))
    (hinside' : (d.resolve n).hasInside w = false) :
    SameClasses (c.withType v m).known (d.withType w n).known := by
  obtain ⟨hc, hjoins⟩ := hmeets.joins_type h.left hinside
  obtain ⟨hd, hjoins'⟩ := hmeets'.joins_type h.right hinside'
  refine ⟨hc, hd, ⟨?_, h.forth.kinds⟩, ⟨?_, h.back.kinds⟩⟩
  · exact hmeets.finer h.forth.types hjoins hjoins' hmeets'
  · exact hmeets'.finer h.back.types hjoins' hjoins hmeets

/-- The same two classes of index terms are joined. -/
theorem bind_kind (h : SameClasses c.known d.known) {s t u x : Term} {v w : Variable}
    (hmeets : Meets (.var v) u (c.findKind s) (c.findKind t))
    (hmeets' : Meets (.var w) x (d.findKind t) (d.findKind s)) :
    SameClasses (c.withKind v u).known (d.withKind w x).known := by
  obtain ⟨hc, hjoins⟩ := hmeets.joins_kind h.left
  obtain ⟨hd, hjoins'⟩ := hmeets'.joins_kind h.right
  refine ⟨hc, hd, ⟨h.forth.types, ?_⟩, ⟨h.back.types, ?_⟩⟩
  · exact hmeets.finer h.forth.kinds hjoins hjoins' hmeets'
  · exact hmeets'.finer h.back.kinds hjoins' hjoins hmeets

end SameClasses

/-! ## The occurs check -/

namespace Classes

/-- The first type stands for a variable that occurs inside the second one. -/
def Inside (c : Classes) (a b : Monotype) : Prop :=
  ∃ v, c.types.find a = .var v ∧ (c.resolve b).hasInside v = true

theorem Acyclic.resolve_of_find_var {c : Classes} (hc : c.Acyclic) {a : Monotype}
    {v : TypeVariable} (ha : c.types.find a = .var v) : c.resolve a = .var v := by
  have hnext := hc.next?_find_type a
  rw [ha] at hnext
  rw [← hc.resolve_find a, ha]
  exact resolve_var_of_none hnext

end Classes

theorem SameClasses.inside {c d : Classes} (h : SameClasses c d) {a b : Monotype}
    (hab : c.Inside a b) : d.Inside a b := by
  obtain ⟨v, ha, hinside⟩ := hab
  obtain ⟨hrigid, hocc⟩ := Monotype.hasInside_iff.mp hinside
  have hvar : (d.types.find a).isVariable = true := by rw [← h.isVariable_find, ha]; rfl
  obtain ⟨w, hw⟩ : ∃ w, d.types.find a = .var w := by
    revert hvar
    cases d.types.find a with
    | var w => exact fun _ => ⟨w, rfl⟩
    | _ => exact fun hvar => by cases hvar
  refine ⟨w, hw, Monotype.hasInside_iff.mpr ?_⟩
  rw [← h.forth.resolve_resolve h.left h.right b]
  refine ⟨Classes.isVariable_resolve hrigid, ?_⟩
  -- the second classes resolve the variable of the first to their own
  have hwv : d.resolve (.var v) = .var w := by
    rw [← h.left.resolve_of_find_var ha, h.forth.resolve_resolve h.left h.right]
    exact h.right.resolve_of_find_var hw
  rw [Classes.resolve_eq_subst, Monotype.mem_occurrences_subst]
  exact ⟨v, Monotype.mem_occurrences_mapIndex.mpr hocc, by rw [hwv]; simp⟩

/-- What is left of a type is written alike: only the names of its variables may differ. -/
theorem SameClasses.resolve_legible {c d : Classes} (h : SameClasses c d) {m : Monotype}
    (hm : (c.resolve m).Legible) : (d.resolve m).Legible := by
  rw [← h.forth.resolve_resolve h.left h.right, Classes.resolve_eq_subst, Monotype.legible_subst]
  · exact Monotype.legible_mapIndex.mpr hm
  · intro v hv
    have hunbound : c.types.next? (.var v) = none :=
      h.left.get?_eq_none_of_mem_resolve (Monotype.mem_occurrences_mapIndex.mp hv)
    have hvar : (d.types.find (.var v)).isVariable = true := by
      rw [← h.isVariable_find, ClassMap.find_of_next?_none hunbound]
      rfl
    rw [← h.right.resolve_find]
    revert hvar
    cases hw : d.types.find (.var v) with
    | var w =>
        intro _
        rw [← hw, h.right.resolve_find, h.right.resolve_of_find_var hw]
        exact Monotype.legible_var
    | _ => exact fun hvar => by cases hvar

theorem SameClasses.inside_iff {c d : Classes} (h : SameClasses c d) (a b : Monotype) :
    c.Inside a b ↔ d.Inside a b := ⟨h.inside, h.symm.inside⟩

namespace TypeContext

/-- Whichever variable is looked for, the occurs check asks whether one type is inside the other. -/
theorem Meets.hasInside_iff {c : TypeContext} {a b m : Monotype} {v : TypeVariable}
    (hc : c.known.Acyclic) (hmeets : Meets (.var v) m (c.find a) (c.find b)) :
    (c.resolve m).hasInside v = true ↔ c.known.Inside a b ∨ c.known.Inside b a := by
  -- nothing is inside a variable, so of the two only one is possible
  have key : ∀ {a b : Monotype}, c.find a = .var v → c.find b = m →
      ((c.resolve m).hasInside v = true ↔ c.known.Inside a b ∨ c.known.Inside b a) := by
    intro a b ha hb
    have hresolve : c.resolve m = c.known.resolve b := by rw [← hb]; exact hc.resolve_find b
    constructor
    · intro hinside
      exact Or.inl ⟨v, ha, hresolve ▸ hinside⟩
    · rintro (⟨w, hw, hinside⟩ | ⟨w, -, hinside⟩)
      · obtain rfl : v = w := Monotype.var.inj (ha.symm.trans hw)
        rw [hresolve]
        exact hinside
      · rw [hc.resolve_of_find_var ha] at hinside
        cases (Monotype.hasInside_iff.mp hinside).1
  obtain ⟨-, ⟨hv, hm⟩ | ⟨hv, hm⟩⟩ := hmeets
  · exact key hv hm
  · rw [or_comm]
    exact key hv hm

/-! ## Index terms

The cases of `KindCase`, told apart by the two representatives. -/

section Kinds

variable (natives : InstructionSet) (n : Nat) {s t : Term} {c : TypeContext}

theorem Meets.not_strictEq {s t u : Term} {v : Variable} (h : Meets (.var v) u s t) :
    ¬s.StrictEq t := by
  obtain ⟨hne, ⟨rfl, rfl⟩ | ⟨rfl, rfl⟩⟩ := h
  · exact fun hst => hne (Term.strictEq_var_iff.mp hst.symm)
  · exact fun hst => hne (Term.strictEq_var_iff.mp hst)

theorem unifyKind_of_same (h : (c.findKind s).StrictEq (c.findKind t)) :
    ∃ step, unifyKind natives n s t c = .ok .ok (c.noted step) := by
  have hcase := kindCase natives n s t c
  generalize unifyKind natives n s t c = r at hcase ⊢
  cases hcase with
  | same step => exact ⟨step, rfl⟩
  | bind v u step hmeets => exact absurd h hmeets.not_strictEq
  | equal step hapart => exact absurd h hapart.ne
  | differ step hapart => exact absurd h hapart.ne
  | fault f hapart => exact absurd h hapart.ne

theorem unifyKind_of_variable (h : ¬(c.findKind s).StrictEq (c.findKind t))
    (hvar : ¬ Apart (c.findKind s) (c.findKind t)) :
    ∃ v u step, Meets (.var v) u (c.findKind s) (c.findKind t) ∧
      unifyKind natives n s t c = .ok .ok ((c.noted step).withKind v u) := by
  have hcase := kindCase natives n s t c
  generalize unifyKind natives n s t c = r at hcase ⊢
  cases hcase with
  | same step hsame => exact absurd hsame h
  | bind v u step hmeets => exact ⟨v, u, step, hmeets, rfl⟩
  | equal step hapart => exact absurd hapart hvar
  | differ step hapart => exact absurd hapart hvar
  | fault f hapart => exact absurd hapart hvar

/-- How unifying two index terms ends once a comparison has told whether they are equal. -/
def concluded (c : TypeContext) : Except Fault Bool → EStateM.Result Fault TypeContext Status
  | .ok true => .ok .ok c
  | .ok false => .ok .kindMismatch c
  | .error f => .error f c

theorem unifyKind_of_apart (h : Apart (c.findKind s) (c.findKind t)) :
    ∃ d : TypeContext, d.known = c.known ∧ d.tracing = c.tracing ∧ unifyKind natives n s t c =
      concluded d ((c.findKind s).convertible natives n (c.findKind t)) := by
  have hcase := kindCase natives n s t c
  generalize unifyKind natives n s t c = r at hcase ⊢
  cases hcase with
  | same step hsame => exact absurd hsame h.ne
  | bind v u step hmeets =>
      obtain ⟨-, ⟨hv, -⟩ | ⟨hv, -⟩⟩ := hmeets
      · exact absurd hv (h.left v)
      · exact absurd hv (h.right v)
  | equal step _ hconv => exact ⟨_, known_noted c step, tracing_noted c step, by rw [hconv]; rfl⟩
  | differ step _ hconv => exact ⟨_, known_noted c step, tracing_noted c step, by rw [hconv]; rfl⟩
  | fault f _ hconv => exact ⟨c, rfl, rfl, by rw [hconv]; rfl⟩

end Kinds

/-! ## Runs side by side -/

/-- The classes are the same up to the choice of representatives, and a record is kept in both contexts
or in none. -/
structure Alongside (c d : TypeContext) : Prop where
  classes : SameClasses c.known d.known
  tracing : c.tracing = d.tracing

theorem Alongside.noted {c d : TypeContext} (h : Alongside c d) (step step' : Nat → UnifyStep) :
    Alongside (c.noted step) (d.noted step') :=
  ⟨h.classes.noted step step', by rw [tracing_noted, tracing_noted, h.tracing]⟩

/-- Two runs end with one status, or both with a fault, and either way their classes are the same up
to the choice of representatives. -/
inductive EndAlike : EStateM.Result Fault TypeContext Status →
    EStateM.Result Fault TypeContext Status → Prop
  | ok (status : Status) {c d : TypeContext} : Alongside c d →
      EndAlike (.ok status c) (.ok status d)
  | error (f g : Fault) {c d : TypeContext} : Alongside c d →
      EndAlike (.error f c) (.error g d)

/-- On the same classes the two computations end alike. -/
def RunAlike (x y : ContextM Status) : Prop :=
  ∀ c d : TypeContext, Alongside c d → EndAlike (x c) (y d)

namespace RunAlike

theorem andThen {x y x' y' : ContextM Status} (hx : RunAlike x x') (hy : RunAlike y y') :
    RunAlike (andThen x y) (andThen x' y') := by
  intro c d h
  have hfirst := hx c d h
  rw [andThen_eq, andThen_eq]
  generalize x c = r, x' d = r' at hfirst ⊢
  cases hfirst with
  | error f g hsame => exact .error f g hsame
  | ok status hsame =>
      cases status with
      | ok => exact hy _ _ hsame
      | _ => exact .ok _ hsame

theorem pairwise {α : Type} {relate : α → α → ContextM Status}
    (h : ∀ a b, RunAlike (relate a b) (relate b a)) (as bs : List α) :
    RunAlike (pairwise relate as bs) (pairwise relate bs as) := by
  induction as generalizing bs with
  | nil =>
      cases bs with
      | nil => exact fun c d h => .ok .ok h
      | cons b bs => exact fun c d h => .ok .ok h
  | cons a as ih =>
      cases bs with
      | nil => exact fun c d h => .ok .ok h
      | cons b bs =>
          rw [pairwise_cons, pairwise_cons]
          exact (h a b).andThen (ih bs)

end RunAlike

/-- A step is recorded in both runs, with its sides exchanged, or in none. -/
theorem Alongside.record {c d : TypeContext} (h : Alongside c d) {a b a' b' : Monotype}
    (ha : a.Legible ↔ a'.Legible) (hb : b.Legible ↔ b'.Legible) (action : UnifyAction)
    (detail detail' : String) {x y : ContextM Status} (hxy : RunAlike x y) :
    EndAlike ((do record action a.render b.render detail; x) c)
      ((do record action b'.render a'.render detail'; y) d) := by
  rcases record_types action a b detail c with
    ⟨step, -, hshowsa, hshowsb, hrun⟩ | ⟨m, f, htracing, hm, hf, hrun⟩
  · rcases record_types action b' a' detail' d with
      ⟨step', -, -, -, hrun'⟩ | ⟨m, f, htracing, hm, hf, hrun'⟩
    · rw [Stateful.bind_of_ok hrun, Stateful.bind_of_ok hrun']
      exact hxy _ _ (h.noted step step')
    · refine absurd ?_ (Monotype.not_legible_of_error hf)
      rw [← h.tracing] at htracing
      rcases hm with rfl | rfl
      · exact hb.mp (hshowsb htracing)
      · exact ha.mp (hshowsa htracing)
  · rcases record_types action b' a' detail' d with
      ⟨step', -, hshowsb, hshowsa, hrun'⟩ | ⟨m', f', -, -, -, hrun'⟩
    · refine absurd ?_ (Monotype.not_legible_of_error hf)
      rw [h.tracing] at htracing
      rcases hm with rfl | rfl
      · exact ha.mpr (hshowsa htracing)
      · exact hb.mpr (hshowsb htracing)
    · rw [Stateful.bind_of_error hrun, Stateful.bind_of_error hrun']
      exact .error f f' h

variable {natives : InstructionSet}

theorem concluded_alike {c d : TypeContext} (h : Alongside c d) {x y : Except Fault Bool}
    (hxy : Agree x y) : EndAlike (concluded c x) (concluded d y) := by
  cases hxy with
  | error f g => exact .error f g h
  | ok same =>
      cases same with
      | true => exact .ok .ok h
      | false => exact .ok .kindMismatch h

theorem unifyKind_runAlike (n : Nat) (s t : Term) :
    RunAlike (unifyKind natives n s t) (unifyKind natives n t s) := by
  intro c d h
  by_cases hsame : (c.findKind s).StrictEq (c.findKind t)
  · obtain ⟨step, hrun⟩ := unifyKind_of_same natives n hsame
    obtain ⟨step', hrun'⟩ := unifyKind_of_same natives n (h.classes.forth.find_kind_strictEq hsame).symm
    rw [hrun, hrun']
    exact .ok .ok (h.noted step step')
  have hdiffer : ¬(d.findKind t).StrictEq (d.findKind s) :=
    fun e => hsame (h.classes.back.find_kind_strictEq e.symm)
  by_cases hapart : Apart (c.findKind s) (c.findKind t)
  · have hs : d.findKind s = c.findKind s := h.classes.find_kind_of_rigid hapart.left
    have ht : d.findKind t = c.findKind t := h.classes.find_kind_of_rigid hapart.right
    have hapart' : Apart (d.findKind t) (d.findKind s) :=
      ⟨hdiffer, by rw [ht]; exact hapart.right, by rw [hs]; exact hapart.left⟩
    obtain ⟨c', hc', hctracing, hrun⟩ := unifyKind_of_apart natives n hapart
    obtain ⟨d', hd', hdtracing, hrun'⟩ := unifyKind_of_apart natives n hapart'
    have h' : Alongside c' d' :=
      ⟨by rw [hc', hd']; exact h.classes, by rw [hctracing, hdtracing, h.tracing]⟩
    rw [hrun, hrun', hs, ht]
    exact concluded_alike h' (Term.convertible_comm n _ _)
  · have hapart' : ¬ Apart (d.findKind t) (d.findKind s) := by
      intro hd
      have hs : c.findKind s = d.findKind s := h.classes.symm.find_kind_of_rigid hd.right
      have ht : c.findKind t = d.findKind t := h.classes.symm.find_kind_of_rigid hd.left
      exact hapart ⟨hsame, by rw [hs]; exact hd.right, by rw [ht]; exact hd.left⟩
    obtain ⟨v, u, step, hmeets, hrun⟩ :=
      unifyKind_of_variable natives n hsame hapart
    obtain ⟨w, x, step', hmeets', hrun'⟩ :=
      unifyKind_of_variable natives n hdiffer hapart'
    rw [hrun, hrun']
    refine .ok .ok ⟨?_, (h.noted step step').tracing⟩
    rw [known_withKind, known_withKind, known_noted, known_noted]
    exact h.classes.bind_kind hmeets hmeets'

theorem unifyParts_runAlike {n : Nat}
    (hunify : ∀ a b, RunAlike (unify natives n a b) (unify natives n b a)) (a b : Monotype) :
    RunAlike (unifyParts (unify natives n) (unifyKind natives n) a b)
      (unifyParts (unify natives n) (unifyKind natives n) b a) := by
  refine (RunAlike.pairwise hunify _ _).andThen (RunAlike.pairwise (fun i j => ?_) _ _)
  exact (unifyKind_runAlike n i.1 j.1).andThen (hunify i.2 j.2)

/-- If something holds of the variable, it holds of the other side exactly if it does of both. -/
theorem Meets.other_iff {α : Type} {u o l r : α} {P : α → Prop} (h : Meets u o l r) (hu : P u) :
    P o ↔ P l ∧ P r := by
  obtain ⟨-, ⟨rfl, rfl⟩ | ⟨rfl, rfl⟩⟩ := h
  · exact ⟨fun ho => ⟨hu, ho⟩, And.right⟩
  · exact ⟨fun ho => ⟨ho, hu⟩, And.left⟩

/-- What is bound can be written if both representatives can. -/
theorem Meets.legible_iff {c : TypeContext} {a b m : Monotype} {v : TypeVariable}
    (h : Meets (.var v) m (c.find a) (c.find b)) :
    m.Legible ↔ (c.find a).Legible ∧ (c.find b).Legible :=
  h.other_iff (P := Monotype.Legible) Monotype.legible_var

/-- Likewise for what is left of it. -/
theorem Meets.resolve_legible_iff {c : TypeContext} {a b m : Monotype} {v : TypeVariable}
    (hc : c.known.Acyclic) (h : Meets (.var v) m (c.find a) (c.find b)) :
    (c.resolve m).Legible ↔ (c.resolve a).Legible ∧ (c.resolve b).Legible := by
  have hunbound := (h.both (P := fun m => c.known.types.next? m = none) (hc.next?_find_type a)
    (hc.next?_find_type b)).1
  have hvar : (c.resolve (.var v)).Legible := by
    rw [← known_resolve, Classes.resolve_var_of_none hunbound]
    exact Monotype.legible_var
  rw [h.other_iff (P := fun m => (c.resolve m).Legible) hvar, resolve_find hc, resolve_find hc]

/-- A variable on one side is bound, whichever side it is, unless one type is inside the other. -/
theorem unify_alike_of_variable {n : Nat} {a b : Monotype} {c d : TypeContext} (h : Alongside c d)
    (hdiffer : ¬(c.find a).StrictEq (c.find b))
    (hvar : (c.find a).isVariable = true ∨ (c.find b).isVariable = true) :
    EndAlike (unify natives (n + 1) a b c) (unify natives (n + 1) b a d) := by
  have hclasses := h.classes
  have hdiffer' : ¬(d.find b).StrictEq (d.find a) :=
    fun e => hdiffer (hclasses.back.find_strictEq e.symm)
  have hvar' : (d.find b).isVariable = true ∨ (d.find a).isVariable = true :=
    hvar.symm.imp (hclasses.isVariable_find b ▸ ·) (hclasses.isVariable_find a ▸ ·)
  obtain ⟨v, m, hmeets, hrun⟩ := unify_of_variable natives hdiffer hvar
  obtain ⟨w, m', hmeets', hrun'⟩ := unify_of_variable natives hdiffer' hvar'
  have hchecks : (c.resolve m).hasInside v = true ↔ (d.resolve m').hasInside w = true := by
    rw [hmeets.hasInside_iff hclasses.left, hmeets'.hasInside_iff hclasses.right, hclasses.inside_iff,
      hclasses.inside_iff, or_comm]
  rw [hrun, hrun']
  cases hinside : (c.resolve m).hasInside v with
  | true =>
      have hwritten : (c.resolve m).Legible ↔ (d.resolve m').Legible := by
        rw [hmeets.resolve_legible_iff hclasses.left, hmeets'.resolve_legible_iff hclasses.right,
          and_comm]
        exact and_congr ⟨hclasses.resolve_legible, hclasses.symm.resolve_legible⟩
          ⟨hclasses.resolve_legible, hclasses.symm.resolve_legible⟩
      rcases bindUnlessInside_of_inside hinside with ⟨step, -, hm, hend⟩ | ⟨f, hf, hend⟩
      · rcases bindUnlessInside_of_inside (hchecks.mp hinside) with
          ⟨step', -, -, hend'⟩ | ⟨f, hf, -⟩
        · rw [hend, hend']
          exact .ok .occursCheckFailed (h.noted step step')
        · exact absurd (hwritten.mp hm) (Monotype.not_legible_of_error hf)
      · rcases bindUnlessInside_of_inside (hchecks.mp hinside) with ⟨step', -, hm', -⟩ | ⟨f', -, hend'⟩
        · exact absurd (hwritten.mpr hm') (Monotype.not_legible_of_error hf)
        · rw [hend, hend']
          exact .error f f' h
  | false =>
      have hinside' : (d.resolve m').hasInside w = false := by
        rw [Bool.eq_false_iff, ne_eq, ← hchecks, hinside]
        exact Bool.false_ne_true
      have hwritten : m.Legible ↔ m'.Legible := by
        rw [hmeets.legible_iff, hmeets'.legible_iff, and_comm]
        exact and_congr ⟨hclasses.find_legible, hclasses.symm.find_legible⟩
          ⟨hclasses.find_legible, hclasses.symm.find_legible⟩
      rcases bindUnlessInside_of_outside hinside with ⟨step, -, hm, hend⟩ | ⟨f, hf, hend⟩
      · rcases bindUnlessInside_of_outside hinside' with ⟨step', -, -, hend'⟩ | ⟨f, hf, -⟩
        · rw [hend, hend']
          refine .ok .ok ⟨?_, (h.noted step step').tracing⟩
          rw [known_withType, known_withType, known_noted, known_noted]
          exact hclasses.bind_type hmeets hinside hmeets' hinside'
        · exact absurd (hwritten.mp hm) (Monotype.not_legible_of_error hf)
      · rcases bindUnlessInside_of_outside hinside' with ⟨step', -, hm', -⟩ | ⟨f', -, hend'⟩
        · exact absurd (hwritten.mpr hm') (Monotype.not_legible_of_error hf)
        · rw [hend, hend']
          exact .error f f' h

/-- Unification does the same to the same classes with its two types exchanged. -/
theorem unify_runAlike (n : Nat) (a b : Monotype) :
    RunAlike (unify natives n a b) (unify natives n b a) := by
  have hdone (status : Status) : RunAlike (return status) (return status) := fun c d h => .ok status h
  induction n generalizing a b with
  | zero => exact fun c d h => .error _ _ h
  | succ n ih =>
      intro c d h
      have ha : (c.find a).Legible ↔ (d.find a).Legible :=
        ⟨h.classes.find_legible, h.classes.symm.find_legible⟩
      have hb : (c.find b).Legible ↔ (d.find b).Legible :=
        ⟨h.classes.find_legible, h.classes.symm.find_legible⟩
      by_cases hsame : (c.find a).StrictEq (c.find b)
      · rw [unify_of_same natives hsame, unify_of_same natives (h.classes.forth.find_strictEq hsame).symm]
        exact h.record ha hb _ _ _ (hdone .ok)
      have hdiffer : ¬(d.find b).StrictEq (d.find a) :=
        fun e => hsame (h.classes.back.find_strictEq e.symm)
      by_cases hvar : (c.find a).isVariable = true ∨ (c.find b).isVariable = true
      · exact unify_alike_of_variable h hsame hvar
      obtain ⟨havar, hbvar⟩ := not_or.mp hvar
      rw [Bool.not_eq_true] at havar hbvar
      have hda : d.find a = c.find a := h.classes.find_of_rigid havar
      have hdb : d.find b = c.find b := h.classes.find_of_rigid hbvar
      rw [unify_of_rigid natives hsame havar hbvar,
        unify_of_rigid natives hdiffer (hdb ▸ hbvar) (hda ▸ havar), hda, hdb]
      cases hclash : clashStatus (c.find a) (c.find b) with
      | some status =>
          obtain ⟨detail, hrun⟩ := decompose_of_clash hclash
          obtain ⟨detail', hrun'⟩ := decompose_of_clash (clashStatus_comm _ _ ▸ hclash)
          rw [hrun, hrun']
          exact h.record Iff.rfl Iff.rfl _ _ _ (hdone status)
      | none =>
          obtain ⟨detail, hrun⟩ := decompose_of_fit hclash
          obtain ⟨detail', hrun'⟩ := decompose_of_fit (clashStatus_comm _ _ ▸ hclash)
          rw [hrun, hrun']
          exact h.record Iff.rfl Iff.rfl _ _ _ (unifyParts_runAlike ih _ _)

/-- The contexts identify the same types, strictly equal ones and equal ones. -/
structure IdentifyAlike (c d : TypeContext) : Prop where
  strictEq : ∀ x y, (c.resolve x).StrictEq (c.resolve y) ↔ (d.resolve x).StrictEq (d.resolve y)
  eq : ∀ x y, c.resolve x = c.resolve y ↔ d.resolve x = d.resolve y

theorem SameClasses.identifyAlike {c d : TypeContext} (h : SameClasses c.known d.known) :
    IdentifyAlike c d := ⟨h.resolve_strictEq_iff, h.resolve_eq_iff⟩

/-- **Unification is symmetric.** With its types exchanged it ends with the same status, good or bad, or
with a fault if it did so before, and the two contexts it leaves identify the same types. -/
theorem Reachable.unify_symmetric {allowed : Operation → Prop} {c : TypeContext}
    (h : Reachable allowed c) (natives : InstructionSet) (n : Nat) (a b : Monotype) :
    (∀ status d, unify natives n a b c = .ok status d →
      ∃ e, unify natives n b a c = .ok status e ∧ IdentifyAlike d e) ∧
    ∀ f d, unify natives n a b c = .error f d →
      ∃ g e, unify natives n b a c = .error g e ∧ IdentifyAlike d e := by
  have halike : EndAlike (unify natives n a b c) (unify natives n b a c) :=
    unify_runAlike n a b c c ⟨.refl h.acyclic, rfl⟩
  generalize unify natives n a b c = r, unify natives n b a c = r' at halike ⊢
  cases halike with
  | ok status hsame =>
      refine ⟨?_, nofun⟩
      rintro status' d ⟨⟩
      exact ⟨_, rfl, SameClasses.identifyAlike hsame.classes⟩
  | error f g hsame =>
      refine ⟨nofun, ?_⟩
      rintro f' d ⟨⟩
      exact ⟨g, _, rfl, SameClasses.identifyAlike hsame.classes⟩

/-- `Vec a i 0` and `Vec b j 1` fail at their last index terms. By then one run has bound `a` to `b`
and `i` to `j`, and the other one `b` to `a` and `j` to `i`. -/
theorem unify_symmetric_of_differing_indices :
    let natives : InstructionSet := fun _ _ => .fail none
    let nat : Monotype := .const (.plain "Nat")
    let a : Monotype := .var ⟨"a", 0⟩
    let b : Monotype := .var ⟨"b", 0⟩
    let left : Monotype := .inst (.plain "Vec") [a] [(.var ⟨"i", 0⟩, nat), (.const "0", nat)]
    let right : Monotype := .inst (.plain "Vec") [b] [(.var ⟨"j", 0⟩, nat), (.const "1", nat)]
    let c := Operation.run (startingAt 0 0) (.unify ⟨natives, 20⟩ (.list b) (.list (.named "c")))
    let d := endOf (unify natives 20 left right c)
    let e := endOf (unify natives 20 right left c)
    Reachable (fun _ => True) c ∧ unify natives 20 left right c = .ok .kindMismatch d ∧
      unify natives 20 right left c = .ok .kindMismatch e ∧
      d.find b = .named "c" ∧ d.find a = .named "c" ∧ e.find b = a ∧ e.find a = a ∧
      IdentifyAlike d e := by
  intro natives nat a b left right c d e
  have hc : Reachable (fun _ => True) c := ⟨0, 0, .single ⟨_, trivial, rfl⟩⟩
  have hd : unify natives 20 left right c = .ok .kindMismatch d := eq_ok_of_run' (by decide +kernel)
  obtain ⟨e', he', halike⟩ := (Reachable.unify_symmetric hc natives 20 left right).1 _ d hd
  obtain rfl : e = e' := by rw [show e = endOf (unify natives 20 right left c) from rfl, he']; rfl
  exact ⟨hc, hd, he', by decide +kernel, by decide +kernel, by decide +kernel, by decide +kernel,
    halike⟩

end TypeContext

end IndexedLambda
