import IndexedLambda.Proofs.Term.Alike
import IndexedLambda.Proofs.Unification.Growth
import IndexedLambda.Unification.Unify
/-!
# Heads, parts and shapes of types

Unification looks at a type that is not a variable through its head name, its parameters and its
index. This module says how readings, regions and weights act on these parts, so that later proofs
need not tell constants, applications and instances apart.

Two comparisons of types are defined on the parts. `SameShape` is what a successful unification
brings about. `Monotype.skeleton` forgets how constants are written and that a constant is not an
application to nothing; two types without indices have one shape just if they have one skeleton.
-/

namespace IndexedLambda

open TypeContext (indexOf)

namespace Monotype

/-- The parameters of a type. -/
def params (m : Monotype) : List Monotype := m.unapply.2

/-- The name of the constant at the head of a type that is not a variable. -/
def headName (m : Monotype) : String := m.unapply.1

/-- Parameters and kinds: every type right under the head. -/
def parts (m : Monotype) : List Monotype := m.params ++ (indexOf m).map Prod.snd

theorem mem_parts {m p : Monotype} : p ∈ m.parts ↔ p ∈ m.params ∨ ∃ j ∈ indexOf m, j.2 = p := by
  rw [parts, List.mem_append, List.mem_map]

theorem mem_parts_of_params {m p : Monotype} (h : p ∈ m.params) : p ∈ m.parts :=
  mem_parts.mpr (Or.inl h)

theorem mem_parts_of_index {m : Monotype} {j : Term × Monotype} (h : j ∈ indexOf m) :
    j.2 ∈ m.parts := mem_parts.mpr (Or.inr ⟨j, h, rfl⟩)

theorem mem_occurrences_iff_parts {m : Monotype} (h : m.isVariable = false) {v : TypeVariable} :
    v ∈ m.occurrences ↔ ∃ p ∈ m.parts, v ∈ p.occurrences := by
  cases m with
  | var w => cases h
  | const c => simp [parts, params, unapply, indexOf]
  | app head ps => simp [parts, params, unapply, indexOf]
  | inst head ps js =>
      simp only [mem_occurrences_inst, mem_parts, params, unapply, indexOf]
      constructor
      · rintro (⟨p, hp, hv⟩ | ⟨j, hj, hv⟩)
        · exact ⟨p, Or.inl hp, hv⟩
        · exact ⟨j.2, Or.inr ⟨j, hj, rfl⟩, hv⟩
      · rintro ⟨p, hp | ⟨j, hj, rfl⟩, hv⟩
        · exact Or.inl ⟨p, hp, hv⟩
        · exact Or.inr ⟨j, hj, hv⟩

theorem mem_indexTerms_iff_parts {m : Monotype} (h : m.isVariable = false) {t : Term} :
    t ∈ m.indexTerms ↔ (∃ j ∈ indexOf m, t = j.1) ∨ ∃ p ∈ m.parts, t ∈ p.indexTerms := by
  cases m with
  | var w => cases h
  | const c => simp [parts, params, unapply, indexOf]
  | app head ps => simp [parts, params, unapply, indexOf]
  | inst head ps js =>
      simp only [mem_indexTerms_inst, mem_parts, params, unapply, indexOf]
      constructor
      · rintro (⟨p, hp, ht⟩ | ⟨j, hj, rfl | ht⟩)
        · exact Or.inr ⟨p, Or.inl hp, ht⟩
        · exact Or.inl ⟨j, hj, rfl⟩
        · exact Or.inr ⟨j.2, Or.inr ⟨j, hj, rfl⟩, ht⟩
      · rintro (⟨j, hj, rfl⟩ | ⟨p, hp | ⟨j, hj, rfl⟩, ht⟩)
        · exact Or.inr ⟨j, hj, Or.inl rfl⟩
        · exact Or.inl ⟨p, hp, ht⟩
        · exact Or.inr ⟨j, hj, Or.inr ht⟩

section MapIndex

variable (f : Term → Term) (m : Monotype)

theorem headName_mapIndex : (m.mapIndex f).headName = m.headName := by
  cases m with
  | inst head ps js => simp [headName, unapply]
  | _ => rfl

theorem params_mapIndex : (m.mapIndex f).params = m.params.map (·.mapIndex f) := by
  cases m with
  | var v => rfl
  | const c => rfl
  | app head ps => simp [params, unapply]
  | inst head ps js => simp [params, unapply]

theorem indexOf_mapIndex :
    indexOf (m.mapIndex f) = (indexOf m).map fun j => (f j.1, j.2.mapIndex f) := by
  cases m with
  | inst head ps js => simp [indexOf]
  | _ => rfl

end MapIndex

theorem isIndexFree_of_mem_params {m p : Monotype} (h : m.isIndexFree = true) (hp : p ∈ m.params) :
    p.isIndexFree = true := by
  cases m with
  | var v => exact absurd hp (by simp [params, unapply])
  | const c => exact absurd hp (by simp [params, unapply])
  | app head ps => exact isIndexFree_app.mp h p hp
  | inst head ps js => exact absurd h (by simp)

theorem indexOf_of_isIndexFree {m : Monotype} (h : m.isIndexFree = true) : indexOf m = [] := by
  cases m with
  | inst head ps js => exact absurd h (by simp)
  | _ => rfl

end Monotype

/-! ## Readings and regions -/

namespace Reading

variable {r : Reading} {m : Monotype}

theorem isVariable_onType (h : m.isVariable = false) : (r.onType m).isVariable = false := by
  refine Monotype.isVariable_subst_of_not ?_
  rw [Monotype.isVariable_mapIndex, h]

theorem strictEq_onTerm {s t : Term} (h : s.StrictEq t) : (r.onTerm s).StrictEq (r.onTerm t) := by
  by_cases hs : ∃ v, s = .var v
  · obtain ⟨v, rfl⟩ := hs
    rw [Term.strictEq_var_iff.mp h.symm]
    exact .of_eq rfl
  · have ht : ∀ v, t ≠ .var v := fun v hv => hs ⟨v, Term.strictEq_var_iff.mp (hv ▸ h)⟩
    rwa [onTerm_of_ne_var fun v hv => hs ⟨v, hv⟩, onTerm_of_ne_var ht]

/-- A reading keeps strict equality. -/
theorem strictEq_onType {n : Monotype} (h : m.StrictEq n) : (r.onType m).StrictEq (r.onType n) := by
  have hindex : (m.mapIndex r.onTerm).erased = (n.mapIndex r.onTerm).erased := by
    rw [Monotype.erased, Monotype.erased, Monotype.mapIndex_mapIndex, Monotype.mapIndex_mapIndex]
    exact h.mapIndex_eq fun s t => strictEq_onTerm
  show ((m.mapIndex r.onTerm).subst r.type).erased = ((n.mapIndex r.onTerm).subst r.type).erased
  rw [Monotype.erased_subst, Monotype.erased_subst, hindex]

theorem headName_onType (h : m.isVariable = false) : (r.onType m).headName = m.headName := by
  cases m with
  | var v => cases h
  | const c => rfl
  | app head ps => simp [onType, Monotype.headName, Monotype.unapply]
  | inst head ps js => simp [onType, Monotype.headName, Monotype.unapply]

theorem params_onType (h : m.isVariable = false) :
    (r.onType m).params = m.params.map r.onType := by
  cases m with
  | var v => cases h
  | const c => rfl
  | app head ps => simp [onType, Monotype.params, Monotype.unapply]
  | inst head ps js => simp [onType, Monotype.params, Monotype.unapply]

theorem indexOf_onType (h : m.isVariable = false) :
    indexOf (r.onType m) = (indexOf m).map fun j => (r.onTerm j.1, r.onType j.2) := by
  cases m with
  | var v => cases h
  | const c => rfl
  | app head ps => simp [onType, indexOf]
  | inst head ps js => simp [onType, indexOf]

/-- What a reading makes of a part is a part of what it makes of the whole. -/
theorem onType_mem_parts (h : m.isVariable = false) {p : Monotype} (hp : p ∈ m.parts) :
    r.onType p ∈ (r.onType m).parts := by
  rw [Monotype.mem_parts, params_onType h, indexOf_onType h]
  rcases Monotype.mem_parts.mp hp with hp | ⟨j, hj, rfl⟩
  · exact Or.inl (List.mem_map_of_mem hp)
  · exact Or.inr ⟨_, List.mem_map_of_mem hj, rfl⟩

end Reading

/-- Strictly equal types resolve to strictly equal types. -/
theorem Classes.resolve_strictEq (c : Classes) {m n : Monotype} (h : m.StrictEq n) :
    (c.resolve m).StrictEq (c.resolve n) := by
  have hread := Reading.strictEq_onType (r := c.reading) h
  rwa [reading_onType, reading_onType] at hread

namespace Region

variable {R : Region} {m : Monotype}

theorem Holds.part (hR : R.Holds m) (h : m.isVariable = false) {p : Monotype} (hp : p ∈ m.parts) :
    R.Holds p :=
  ⟨fun v hv => hR.types v ((Monotype.mem_occurrences_iff_parts h).mpr ⟨p, hp, hv⟩),
    fun t ht => hR.terms t ((Monotype.mem_indexTerms_iff_parts h).mpr (Or.inr ⟨p, hp, ht⟩))⟩

theorem Holds.index (hR : R.Holds m) (h : m.isVariable = false) {j : Term × Monotype}
    (hj : j ∈ indexOf m) : R.terms j.1 :=
  hR.terms j.1 ((Monotype.mem_indexTerms_iff_parts h).mpr (Or.inl ⟨j, hj, rfl⟩))

end Region

namespace Classes

variable {c : Classes} {m : Monotype}

theorem isVariable_resolve (h : m.isVariable = false) : (c.resolve m).isVariable = false := by
  rw [← reading_onType]
  exact Reading.isVariable_onType h

theorem indexOf_resolve (h : m.isVariable = false) :
    indexOf (c.resolve m) = (indexOf m).map fun j => (c.kinds.find j.1, c.resolve j.2) := by
  rw [← reading_onType, Reading.indexOf_onType h]
  exact List.map_congr_left fun j _ => by rw [reading_onType, reading_onTerm]

theorem resolve_mem_parts (h : m.isVariable = false) {p : Monotype} (hp : p ∈ m.parts) :
    c.resolve p ∈ (c.resolve m).parts := by
  rw [← reading_onType, ← reading_onType]
  exact Reading.onType_mem_parts h hp

end Classes

/-! ## Weight -/

namespace Monotype

mutual
/-- How many constructors a type has. Index terms weigh nothing. -/
def weight : Monotype → Nat
  | .var _ => 1
  | .const _ => 1
  | .app _ params => 1 + weightList params
  | .inst _ params index => 1 + weightList params + weightIndex index
/-- The weight of all elements. -/
def weightList : List Monotype → Nat
  | [] => 0
  | m :: ms => m.weight + weightList ms
/-- The weight of all kinds. -/
def weightIndex : List (Term × Monotype) → Nat
  | [] => 0
  | (_, k) :: js => k.weight + weightIndex js
end

theorem weight_le_weightList {p : Monotype} {ps : List Monotype} (h : p ∈ ps) :
    p.weight ≤ weightList ps := by
  induction ps with
  | nil => cases h
  | cons q ps ih =>
      rw [weightList]
      rcases List.mem_cons.mp h with rfl | h
      · omega
      · have := ih h
        omega

theorem weight_le_weightIndex {j : Term × Monotype} {js : List (Term × Monotype)} (h : j ∈ js) :
    j.2.weight ≤ weightIndex js := by
  induction js with
  | nil => cases h
  | cons i js ih =>
      rw [weightIndex]
      rcases List.mem_cons.mp h with rfl | h
      · omega
      · have := ih h
        omega

/-- Every part is lighter than the whole. -/
theorem weight_lt_of_mem_parts {m p : Monotype} (hp : p ∈ m.parts) : p.weight < m.weight := by
  cases m with
  | var v => simp [parts, params, unapply, indexOf] at hp
  | const c => simp [parts, params, unapply, indexOf] at hp
  | app head ps =>
      have hp' : p ∈ ps := by simpa [parts, params, unapply, indexOf] using hp
      have := weight_le_weightList hp'
      rw [weight]
      omega
  | inst head ps js =>
      rw [weight]
      rcases mem_parts.mp hp with hp | ⟨j, hj, rfl⟩
      · have := weight_le_weightList (show p ∈ ps from hp)
        omega
      · have := weight_le_weightIndex (show j ∈ js from hj)
        omega

theorem weightList_map {f : Monotype → Monotype} {ps : List Monotype}
    (h : ∀ p ∈ ps, (f p).weight = p.weight) : weightList (ps.map f) = weightList ps := by
  induction ps with
  | nil => rfl
  | cons p ps ih =>
      rw [List.map_cons, weightList, weightList, h p (by simp),
        ih fun q hq => h q (List.mem_cons_of_mem p hq)]

theorem weightIndex_map {f : Term × Monotype → Term × Monotype} {js : List (Term × Monotype)}
    (h : ∀ j ∈ js, (f j).2.weight = j.2.weight) : weightIndex (js.map f) = weightIndex js := by
  induction js with
  | nil => rfl
  | cons j js ih =>
      rw [List.map_cons, weightIndex, weightIndex, h j (by simp),
        ih fun i hi => h i (List.mem_cons_of_mem j hi)]

theorem weight_mapIndex (f : Term → Term) (m : Monotype) : (m.mapIndex f).weight = m.weight := by
  induction m using Monotype.induction_on with
  | var v => rfl
  | const c => rfl
  | app head ps ih => rw [mapIndex_app, weight, weight, weightList_map ih]
  | inst head ps js ihp ihj =>
      rw [mapIndex_inst, weight, weight, weightList_map ihp, weightIndex_map ihj]

/-- Induction on a type with a hypothesis for every part. -/
theorem parts_induction {motive : Monotype → Prop} (var : ∀ v, motive (.var v))
    (rigid : ∀ m, m.isVariable = false → (∀ p ∈ m.parts, motive p) → motive m) (m : Monotype) :
    motive m := by
  induction hw : m.weight using Nat.strongRecOn generalizing m with
  | ind w ih =>
      cases hm : m.isVariable with
      | false =>
          exact rigid m hm fun p hp => ih p.weight (hw ▸ weight_lt_of_mem_parts hp) p rfl
      | true =>
          cases m with
          | var v => exact var v
          | _ => cases hm

end Monotype

/-- A substitution of types as a reading: index variables stay. -/
def Reading.ofSubst (σ : TypeVariable → Monotype) : Reading := ⟨σ, .var⟩

@[simp] theorem Reading.ofSubst_onTerm (σ : TypeVariable → Monotype) (t : Term) :
    (ofSubst σ).onTerm t = t := by
  cases t with
  | var v => rfl
  | _ => rfl

@[simp] theorem Reading.ofSubst_onType (σ : TypeVariable → Monotype) (m : Monotype) :
    (ofSubst σ).onType m = m.subst σ := by
  rw [onType, Monotype.mapIndex_eq_self fun t _ => ofSubst_onTerm σ t]
  rfl

/-- A reading makes a type at least as heavy as what it makes of a variable in it. -/
theorem Reading.weight_type_le {r : Reading} {m : Monotype} {v : TypeVariable}
    (hv : v ∈ m.occurrences) : (r.type v).weight ≤ (r.onType m).weight := by
  induction m using Monotype.parts_induction with
  | var w =>
      obtain rfl := (Monotype.mem_occurrences_var _).mp hv
      exact Nat.le_refl _
  | rigid m hm ih =>
      obtain ⟨p, hp, hv⟩ := (Monotype.mem_occurrences_iff_parts hm).mp hv
      have hle := ih p hp hv
      have hlt := Monotype.weight_lt_of_mem_parts (Reading.onType_mem_parts (r := r) hm hp)
      omega

/-- The occurs check is right: a variable inside a type cannot be read as the type. -/
theorem Reading.weight_type_lt {r : Reading} {m : Monotype} (hm : m.isVariable = false)
    {v : TypeVariable} (hv : v ∈ m.occurrences) : (r.type v).weight < (r.onType m).weight := by
  obtain ⟨p, hp, hv⟩ := (Monotype.mem_occurrences_iff_parts hm).mp hv
  have hle := Reading.weight_type_le (r := r) hv
  have hlt := Monotype.weight_lt_of_mem_parts (Reading.onType_mem_parts (r := r) hm hp)
  omega

/-! ## Skeletons -/

namespace Monotype

mutual
/-- The type with all constants written plainly, and with a constant as an application to no
parameters. -/
def skeleton : Monotype → Monotype
  | .var v => .var v
  | .const c => .app (.plain c.name) []
  | .app head params => .app (.plain head.name) (skeletonList params)
  | .inst head params index =>
    .inst (.plain head.name) (skeletonList params) (skeletonIndex index)
/-- `skeleton` of every element. -/
def skeletonList : List Monotype → List Monotype
  | [] => []
  | m :: ms => m.skeleton :: skeletonList ms
/-- `skeleton` of every kind. -/
def skeletonIndex : List (Term × Monotype) → List (Term × Monotype)
  | [] => []
  | (t, k) :: js => (t, k.skeleton) :: skeletonIndex js
end

/-- Two types that differ only in how constants are written, and in whether a constant is an
application to no parameters. -/
def Alike (m n : Monotype) : Prop := m.skeleton = n.skeleton

instance (m n : Monotype) : Decidable (m.Alike n) :=
  inferInstanceAs (Decidable (m.skeleton = n.skeleton))

theorem skeletonList_eq_map (ms : List Monotype) : skeletonList ms = ms.map skeleton := by
  induction ms with
  | nil => rfl
  | cons m ms ih => rw [skeletonList, ih, List.map_cons]

theorem skeletonIndex_eq_map (js : List (Term × Monotype)) :
    skeletonIndex js = js.map fun j => (j.1, j.2.skeleton) := by
  induction js with
  | nil => rfl
  | cons j js ih => rw [skeletonIndex, ih, List.map_cons]

@[simp] theorem skeleton_var (v : TypeVariable) : (var v).skeleton = var v := rfl

@[simp] theorem skeleton_const (c : TypeConstant) : (const c).skeleton = app (.plain c.name) [] :=
  rfl

@[simp] theorem skeleton_app (c : TypeConstant) (params : List Monotype) :
    (app c params).skeleton = app (.plain c.name) (params.map skeleton) := by
  rw [skeleton, skeletonList_eq_map]

@[simp] theorem skeleton_inst (c : TypeConstant) (params : List Monotype)
    (index : List (Term × Monotype)) : (inst c params index).skeleton =
      inst (.plain c.name) (params.map skeleton) (index.map fun j => (j.1, j.2.skeleton)) := by
  rw [skeleton, skeletonList_eq_map, skeletonIndex_eq_map]

theorem weight_skeleton (m : Monotype) : m.skeleton.weight = m.weight := by
  induction m using Monotype.induction_on with
  | var v => rfl
  | const c => rfl
  | app head ps ih => rw [skeleton_app, weight, weight, weightList_map ih]
  | inst head ps js ihp ihj =>
      rw [skeleton_inst, weight, weight, weightList_map ihp, weightIndex_map ihj]

theorem congruent_skeleton : Congruent skeleton := by
  intro m σ τ h
  induction m using Monotype.induction_on with
  | var v => exact h v (by simp)
  | const c => rfl
  | app head ps ih =>
      rw [subst_app, subst_app, skeleton_app, skeleton_app, List.map_map, List.map_map]
      exact congrArg _ (List.map_congr_left fun p hp => ih p hp fun v hv =>
        h v ((mem_occurrences_app _ _).mpr ⟨p, hp, hv⟩))
  | inst head ps js ihp ihj =>
      rw [subst_inst, subst_inst, skeleton_inst, skeleton_inst]
      simp only [List.map_map]
      congr 1
      · exact List.map_congr_left fun p hp => ihp p hp fun v hv =>
          h v ((mem_occurrences_inst _ _ _).mpr (Or.inl ⟨p, hp, hv⟩))
      · exact List.map_congr_left fun j hj => Prod.ext rfl (ihj j hj fun v hv =>
          h v ((mem_occurrences_inst _ _ _).mpr (Or.inr ⟨j, hj, hv⟩)))

/-- The skeleton of a constant or an application shows its head and its parameters. -/
theorem skeleton_of_isIndexFree {m : Monotype} (hm : m.isVariable = false)
    (hfree : m.isIndexFree = true) :
    m.skeleton = app (.plain m.headName) (m.params.map skeleton) := by
  cases m with
  | var v => cases hm
  | const c => rfl
  | app head ps => rw [skeleton_app]; rfl
  | inst head ps js => exact absurd hfree (by simp)

end Monotype

/-! ## Types of one shape -/

/-- Index terms that count as the same: strictly equal terms, or two terms that are not variables and
are computationally equal. -/
def SameTerm (natives : InstructionSet) (s t : Term) : Prop :=
  s.StrictEq t ∨ (∀ v, s ≠ .var v) ∧ (∀ v, t ≠ .var v) ∧ ∃ fuel, s.convertible natives fuel t = .ok true

/-- Types of one shape. At every position both are the same variable, or both have the same head
name, equally many parameters and equally many indices; a constant, an application to no parameters
and an instance with no indices are not told apart, nor is how a constant is written. Index terms
count as the same in the sense of `SameTerm`. -/
inductive SameShape (natives : InstructionSet) : Monotype → Monotype → Prop
  | var (v : TypeVariable) : SameShape natives (.var v) (.var v)
  | rigid {a b : Monotype} : a.isVariable = false → b.isVariable = false →
      a.headName = b.headName →
      List.Forall₂ (SameShape natives) a.params b.params →
      List.Forall₂ (fun i j => SameTerm natives i.1 j.1) (indexOf a) (indexOf b) →
      List.Forall₂ (fun i j => SameShape natives i.2 j.2) (indexOf a) (indexOf b) →
      SameShape natives a b

namespace SameShape

variable {natives : InstructionSet}

/-- Strictly equal types have one shape. -/
theorem of_strictEq {m n : Monotype} (h : m.StrictEq n) : SameShape natives m n := by
  induction m using Monotype.parts_induction generalizing n with
  | var v =>
      rw [Monotype.strictEq_var_iff.mp h.symm]
      exact .var v
  | rigid m hm ih =>
      have hn : n.isVariable = false := by
        rw [← Monotype.isVariable_mapIndex (f := .erased), ← show m.erased = n.mapIndex .erased from h,
          Monotype.erased, Monotype.isVariable_mapIndex, hm]
      have hname := congrArg Monotype.headName h
      have hparams := congrArg Monotype.params h
      have hindex := congrArg indexOf h
      simp only [Monotype.erased, Monotype.headName_mapIndex, Monotype.params_mapIndex,
        Monotype.indexOf_mapIndex] at hname hparams hindex
      refine .rigid hm hn hname ?_ ?_ ?_
      · exact Term.forall₂_of_map_eq_map
          (fun p hp q hpq => ih p (Monotype.mem_parts_of_params hp) hpq) hparams
      · refine Term.forall₂_of_map_eq_map (fun i _ j hij => ?_) hindex
        exact Or.inl (Prod.mk.inj hij).1
      · refine Term.forall₂_of_map_eq_map (fun i hi j hij => ?_) hindex
        exact ih i.2 (Monotype.mem_parts_of_index hi) (Prod.mk.inj hij).2

theorem refl (m : Monotype) : SameShape natives m m := of_strictEq (.of_eq rfl)

/-- For types without indices, to have one shape is to have one skeleton. -/
theorem alike {m n : Monotype} (h : SameShape natives m n) (hm : m.isIndexFree = true)
    (hn : n.isIndexFree = true) : m.Alike n := by
  induction m using Monotype.parts_induction generalizing n with
  | var v =>
      cases h with
      | var => rfl
      | rigid hv => cases hv
  | rigid m hvar ih =>
      cases h with
      | var v => rfl
      | rigid _ hvar' hname hparams _ _ =>
          have hmap : m.params.map Monotype.skeleton = n.params.map Monotype.skeleton := by
            rw [← List.forall₂_eq_eq_eq, List.forall₂_map_left_iff, List.forall₂_map_right_iff,
              List.forall₂_iff_zip]
            obtain ⟨hlength, hpairs⟩ := List.forall₂_iff_zip.mp hparams
            refine ⟨hlength, fun {p q} hpq => ?_⟩
            obtain ⟨hp, hq⟩ := List.of_mem_zip hpq
            exact ih p (Monotype.mem_parts_of_params hp) (hpairs hpq)
              (Monotype.isIndexFree_of_mem_params hm hp) (Monotype.isIndexFree_of_mem_params hn hq)
          rw [Monotype.Alike, Monotype.skeleton_of_isIndexFree hvar hm,
            Monotype.skeleton_of_isIndexFree hvar' hn, hname, hmap]

end SameShape

end IndexedLambda
