import IndexedLambda.Proofs.Evaluation.Fuel
import IndexedLambda.Proofs.Unification.Reachable
/-!
# Termination

`ClassMap.find` and `ClassMap.resolve` end on every map, because they set aside what they have
followed. The plain loops do not: `ClassMap.follow` and `Classes.unfold` follow bindings for as long
as there are some, and in a cycle no number of steps is enough for them. In acyclic classes they end,
with the same answers (`Ends`).

Unification is bounded in the depth of its recursion. In acyclic classes the bound can be chosen such
that no larger one makes a difference (`Settles`). Two quantities carry the proof: the number of
variables in the two types that are still unbound, which every binding of a type variable lowers, and
the weight of the first resolved type, which every step to a part lowers and which bindings of index
variables leave as it is. All that is left to go on for ever is the comparison of two index terms
(`Stuck`). Apart from that a run is cut short only by a type that cannot be written.
-/

namespace IndexedLambda

open Relation

/-! ## Plain loops -/

/-- With enough steps the loop ends, and with this answer. -/
def Ends {α : Type} (loop : Nat → Option α) (answer : α) : Prop :=
  ∃ bound, ∀ n, bound ≤ n → loop n = some answer

/-- Follows bindings until there is none, or one that leads nowhere else. It gives up after the given
number of steps. -/
def ClassMap.follow {α : Type} [Keyed α] [DecidableEq α] (c : ClassMap α) : Nat → α → Option α
  | 0, _ => none
  | n + 1, a =>
    match c.next? a with
    | some b => if b = a then some a else c.follow n b
    | none => some a

/-- Replaces every variable by its representative, all the way down, by following bindings. It gives
up below the given depth. -/
def Classes.unfold (c : Classes) : Nat → Monotype → Option Monotype
  | 0, _ => none
  | n + 1, m => do
    match ← c.types.follow n m with
    | .app head params => return .app head (← params.mapM (c.unfold n))
    | .inst head params index =>
      let params ← params.mapM (c.unfold n)
      return .inst head params
        (← index.mapM fun j => do return (← c.kinds.follow n j.1, ← c.unfold n j.2))
    | rep => return rep

namespace Ends

variable {α β : Type}

theorem done (a : α) : Ends (fun _ => some a) a := ⟨0, fun _ _ => rfl⟩

theorem succ {loop : Nat → Option α} {a : α} (h : Ends (fun n => loop (n + 1)) a) : Ends loop a := by
  obtain ⟨bound, h⟩ := h
  refine ⟨bound + 1, fun n hn => ?_⟩
  obtain ⟨k, rfl⟩ : ∃ k, n = k + 1 := ⟨n - 1, by omega⟩
  exact h k (by omega)

theorem bind {x : Nat → Option α} {f : Nat → α → Option β} {a : α} {b : β} (hx : Ends x a)
    (hf : Ends (fun n => f n a) b) : Ends (fun n => x n >>= f n) b := by
  obtain ⟨boundx, hx⟩ := hx
  obtain ⟨boundf, hf⟩ := hf
  refine ⟨max boundx boundf, fun n hn => ?_⟩
  show x n >>= f n = some b
  rw [hx n (by omega)]
  exact hf n (by omega)

theorem mapM {f : Nat → α → Option β} {g : α → β} {as : List α}
    (h : ∀ a ∈ as, Ends (fun n => f n a) (g a)) : Ends (fun n => as.mapM (f n)) (as.map g) := by
  induction as with
  | nil => exact done []
  | cons a as ih =>
      rw [List.forall_mem_cons] at h
      simp only [List.mapM_cons]
      exact h.1.bind ((ih h.2).bind (done _))

end Ends

theorem ClassMap.follow_eq_find {α : Type} [Keyed α] [LawfulKeyed α] [DecidableEq α]
    {c : ClassMap α} {rank : α → Nat} (hc : c.Descends rank) {n : Nat} {a : α} (hn : rank a < n) :
    c.follow n a = some (c.find a) := by
  induction n generalizing a with
  | zero => omega
  | succ n ih =>
      rw [follow]
      cases hnext : c.next? a with
      | none => rw [find_of_next?_none hnext]
      | some b =>
          have hlt : rank b < rank a := hc a b hnext
          have hne : b ≠ a := by rintro rfl; omega
          show (if b = a then some a else c.follow n b) = _
          rw [if_neg hne, find_of_next? hc hnext]
          exact ih (by omega)

namespace Classes

variable {c : Classes}

theorem Acyclic.follow_type (hc : c.Acyclic) (m : Monotype) :
    Ends (fun n => c.types.follow n m) (c.types.find m) := by
  obtain ⟨rank, hrank⟩ := hc.types
  exact ⟨_, fun n hn => ClassMap.follow_eq_find hrank.descends hn⟩

theorem Acyclic.follow_kind (hc : c.Acyclic) (t : Term) :
    Ends (fun n => c.kinds.follow n t) (c.kinds.find t) := by
  obtain ⟨rank, hrank⟩ := hc.kinds
  exact ⟨_, fun n hn => ClassMap.follow_eq_find hrank.descends hn⟩

theorem resolve_app (head : TypeConstant) (params : List Monotype) :
    c.resolve (.app head params) = .app head (params.map c.resolve) := by
  rw [resolve_eq_subst, Monotype.mapIndex_app, Monotype.subst_app, List.map_map]
  exact congrArg _ (List.map_congr_left fun p _ => (resolve_eq_subst p).symm)

theorem resolve_inst (head : TypeConstant) (params : List Monotype)
    (index : List (Term × Monotype)) : c.resolve (.inst head params index) =
      .inst head (params.map c.resolve) (index.map fun j => (c.kinds.find j.1, c.resolve j.2)) := by
  rw [resolve_eq_subst, Monotype.mapIndex_inst, Monotype.subst_inst]
  simp only [List.map_map]
  congr 1
  · exact List.map_congr_left fun p _ => (resolve_eq_subst p).symm
  · exact List.map_congr_left fun j _ => Prod.ext rfl (resolve_eq_subst j.2).symm

theorem Acyclic.unfold_resolve (hc : c.Acyclic) (m : Monotype) :
    Ends (fun n => c.unfold n m) (c.resolve m) := by
  -- the weight of the resolved type goes down with every part that is resolved
  induction hw : (c.resolve m).weight using Nat.strongRecOn generalizing m with
  | ind w ih =>
      rw [← hc.resolve_find m] at hw ⊢
      have hnext := hc.next?_find_type m
      refine .succ (.bind (hc.follow_type m) ?_)
      generalize c.types.find m = rep at hw hnext ⊢
      have hpart : rep.isVariable = false →
          ∀ p ∈ rep.parts, Ends (fun n => c.unfold n p) (c.resolve p) := by
        intro hvar p hp
        have hlt := Monotype.weight_lt_of_mem_parts (resolve_mem_parts (c := c) hvar hp)
        exact ih _ (hw ▸ hlt) p rfl
      cases rep with
      | var v =>
          rw [resolve_var_of_none hnext]
          exact .done _
      | const k =>
          rw [resolve_eq_subst]
          exact .done _
      | app head params =>
          rw [resolve_app]
          refine .bind (.mapM fun p hp => ?_) (.done _)
          exact hpart rfl p (Monotype.mem_parts_of_params hp)
      | inst head params index =>
          rw [resolve_inst]
          refine .bind (.mapM fun p hp => ?_) (.bind (.mapM fun j hj => ?_) (.done _))
          · exact hpart rfl p (Monotype.mem_parts_of_params hp)
          · refine .bind (hc.follow_kind j.1) (.bind ?_ (.done _))
            exact hpart rfl j.2 (Monotype.mem_parts_of_index hj)

end Classes

/-! ## The measure -/

/-- Only the listed type variables; any index term. -/
def Region.within (vars : List TypeVariable) : Region := ⟨(· ∈ vars), fun _ => True⟩

theorem Region.within_holds {vars : List TypeVariable} {m : Monotype}
    (h : ∀ v ∈ m.occurrences, v ∈ vars) : (within vars).Holds m := ⟨h, fun _ _ => trivial⟩

/-- How many of the listed variables are not bound. -/
def Classes.unboundIn (vars : List TypeVariable) (c : Classes) : Nat :=
  vars.countP fun v => (c.types.get? v.key).isNone

theorem countP_lt_countP {α : Type} {p q : α → Bool} {xs : List α} (hle : ∀ x ∈ xs, p x → q x)
    {x : α} (hx : x ∈ xs) (hp : p x = false) (hq : q x = true) : xs.countP p < xs.countP q := by
  induction xs with
  | nil => cases hx
  | cons y ys ih =>
      have hrest : ys.countP p ≤ ys.countP q :=
        List.countP_mono_left fun z hz => hle z (List.mem_cons_of_mem y hz)
      rw [List.countP_cons, List.countP_cons]
      rcases List.mem_cons.mp hx with rfl | hx
      · rw [if_neg (by simp [hp]), if_pos hq]
        omega
      · have hlt := ih (fun z hz => hle z (List.mem_cons_of_mem y hz)) hx
        have hy := hle y (by simp)
        cases hpy : p y with
        | false => simp; omega
        | true => rw [hy hpy]; omega

/-- A binding lowers the number of unbound variables, or it leaves all weights as they are. -/
theorem Binds.measure {vars : List TypeVariable} {c d : Classes} (h : Binds (.within vars) c d)
    (hc : c.Acyclic) : d.unboundIn vars < c.unboundIn vars ∨
      d.unboundIn vars = c.unboundIn vars ∧ ∀ x, (d.resolve x).weight = (c.resolve x).weight := by
  cases h with
  | @type v m hv _ _ hvars _ =>
      refine Or.inl (countP_lt_countP (fun w _ hw => ?_) hvars ?_ ?_)
      · rw [ClassMap.get?_bind] at hw
        split at hw
        · exact absurd hw (by simp)
        · exact hw
      · rw [ClassMap.get?_bind, if_pos rfl]
        rfl
      · rw [hv]
        rfl
  | @kind v t hv ht hne _ _ =>
      refine Or.inr ⟨rfl, fun x => ?_⟩
      rw [hc.resolve_bind_kind hv ht hne, Monotype.weight_mapIndex]

theorem Grows.measure {vars : List TypeVariable} {c d : Classes} (h : Grows (.within vars) c d)
    (hc : c.Acyclic) : d.unboundIn vars < c.unboundIn vars ∨
      d.unboundIn vars = c.unboundIn vars ∧ ∀ x, (d.resolve x).weight = (c.resolve x).weight := by
  induction h with
  | refl => exact Or.inr ⟨rfl, fun _ => rfl⟩
  | tail hgrows hstep ih =>
      have hmid := Grows.acyclic hgrows hc
      rcases hstep.measure hmid with hlt | ⟨heq, hweight⟩
      · rcases ih with hlt' | ⟨heq', -⟩
        · exact Or.inl (by omega)
        · exact Or.inl (by omega)
      · rcases ih with hlt' | ⟨heq', hweight'⟩
        · exact Or.inl (by omega)
        · exact Or.inr ⟨by omega, fun x => (hweight x).trans (hweight' x)⟩

namespace TypeContext

/-! ## Computations that settle -/

/-- From some bound on the computation ends in one way. Should that be a fault, then the fault and
the context in which it came up are related as given. -/
def Settles (x : Nat → ContextM Status) (stuck : Fault → TypeContext → Prop) (c : TypeContext) :
    Prop :=
  ∃ result bound, (∀ n, bound ≤ n → x n c = result) ∧ ∀ f d, result = .error f d → stuck f d

namespace Settles

variable {x y : Nat → ContextM Status} {stuck stuck' : Fault → TypeContext → Prop}
  {c : TypeContext}

theorem done (status : Status) : Settles (fun _ => return status) stuck c :=
  ⟨.ok status c, 0, fun _ _ => rfl, fun _ _ h => by cases h⟩

/-- One step more does not matter. -/
theorem succ (h : Settles (fun n => x (n + 1)) stuck c) : Settles x stuck c := by
  obtain ⟨result, bound, hresult, hfault⟩ := h
  refine ⟨result, bound + 1, fun n hn => ?_, hfault⟩
  obtain ⟨k, rfl⟩ : ∃ k, n = k + 1 := ⟨n - 1, by omega⟩
  exact hresult k (by omega)

theorem of_eq {d : TypeContext} (heq : ∀ n, x n c = y n d) (h : Settles y stuck d) :
    Settles x stuck c := by
  obtain ⟨result, bound, hresult, hfault⟩ := h
  exact ⟨result, bound, fun n hn => (heq n).trans (hresult n hn), hfault⟩

theorem imp (h : Settles x stuck c)
    (hstuck : ∀ n f, stuck f (endOf (x n c)) → stuck' f (endOf (x n c))) :
    Settles x stuck' c := by
  obtain ⟨result, bound, hresult, hfault⟩ := h
  refine ⟨result, bound, hresult, ?_⟩
  rintro f d rfl
  have hrun := hresult bound (Nat.le_refl _)
  have hmono := hstuck bound f
  rw [hrun, endOf_error] at hmono
  exact hmono (hfault f d rfl)

theorem andThen (hx : Settles x stuck c)
    (hy : ∀ n d, x n c = .ok .ok d → Settles y stuck d) :
    Settles (fun n => andThen (x n) (y n)) stuck c := by
  obtain ⟨result, bound, hresult, hd⟩ := hx
  cases result with
  | error f d =>
      refine ⟨.error f d, bound, fun n hn => ?_, hd⟩
      show TypeContext.andThen (x n) (y n) c = _
      rw [andThen_eq, hresult n hn]
  | ok status d =>
      by_cases hok : status = .ok
      · subst hok
        obtain ⟨result', bound', hresult', hd'⟩ := hy bound d (hresult bound (Nat.le_refl _))
        refine ⟨result', max bound bound', fun n hn => ?_, hd'⟩
        show TypeContext.andThen (x n) (y n) c = _
        rw [andThen_eq, hresult n (by omega)]
        exact hresult' n (by omega)
      · refine ⟨.ok status d, bound, fun n hn => ?_, hd⟩
        show TypeContext.andThen (x n) (y n) c = _
        rw [andThen_eq, hresult n hn]
        cases status with
        | ok => exact absurd rfl hok
        | _ => rfl

/-- The pairs of two lists settle one after the other if each settles wherever the others lead. -/
theorem pairwise {α : Type} {relate : Nat → α → α → ContextM Status} {P : TypeContext → Prop}
    {as bs : List α} (hkeeps : ∀ a ∈ as, ∀ b ∈ bs, ∀ n, Keeps P (relate n a b))
    (h : ∀ a ∈ as, ∀ b ∈ bs, ∀ d, P d → Settles (fun n => relate n a b) stuck d)
    {d : TypeContext} (hd : P d) :
    Settles (fun n => TypeContext.pairwise (relate n) as bs) stuck d := by
  induction as generalizing bs d with
  | nil => exact done .ok
  | cons a as ih =>
      cases bs with
      | nil => exact done .ok
      | cons b bs =>
          refine andThen (h a (by simp) b (by simp) d hd) fun n e he => ?_
          have hkeep := hkeeps a (by simp) b (by simp) n d hd
          rw [he, endOf_ok] at hkeep
          refine ih (fun a' ha' b' hb' => hkeeps a' (List.mem_cons_of_mem a ha') b'
            (List.mem_cons_of_mem b hb')) (fun a' ha' b' hb' => h a' (List.mem_cons_of_mem a ha') b'
            (List.mem_cons_of_mem b hb')) hkeep

end Settles

/-! ## Unification settles -/

/-- Two index terms have to be compared, and the comparison has no answer: it is stopped or ends in
the fault, whatever the bound. If the fault is `Fault.outOfFuel`, the comparison never ends. -/
structure Fails (natives : InstructionSet) (f : Fault) (s t : Term) : Prop where
  apart : Apart s t
  noAnswer : ∀ n, Approximates (s.convertible natives n t) (.error f)

/-- One of the index terms of the first type cannot be compared with one of the second. -/
def Stuck (natives : InstructionSet) (a b : Monotype) (f : Fault) (c : TypeContext) : Prop :=
  ∃ s ∈ (c.resolve a).indexTerms, ∃ t ∈ (c.resolve b).indexTerms, Fails natives f s t

variable {natives : InstructionSet} {c : TypeContext}

/-- Every comparison has one answer from some bound on. -/
theorem convertible_settles (s t : Term) :
    ∃ bound, ∀ n, bound ≤ n → s.convertible natives n t = s.convertible natives bound t := by
  by_cases hend : ∃ n, s.convertible natives n t ≠ .error .outOfFuel
  · obtain ⟨bound, hbound⟩ := hend
    refine ⟨bound, fun n hn => ?_⟩
    rcases Term.convertible_mono hn s t with hstop | heq
    · exact absurd hstop hbound
    · exact heq.symm
  · have hnever : ∀ n, s.convertible natives n t = .error .outOfFuel :=
      fun n => Decidable.not_not.mp fun hn => hend ⟨n, hn⟩
    exact ⟨0, fun n _ => by rw [hnever, hnever]⟩

theorem unifyKind_settles (s t : Term) : Settles (fun n => unifyKind natives n s t)
    (fun f d => Fails natives f (d.findKind s) (d.findKind t)) c := by
  obtain ⟨bound, hbound⟩ := convertible_settles (c.findKind s) (c.findKind t)
  refine ⟨unifyKind natives bound s t c, bound, fun n hn => unifyKind_congr (hbound n hn), ?_⟩
  intro f d hd
  have hcase := kindCase natives bound s t c
  rw [hd] at hcase
  cases hcase with
  | fault _ hapart hconv =>
      refine ⟨hapart, fun n => ?_⟩
      rw [← hconv, ← hbound (max n bound) (Nat.le_max_right n bound)]
      exact Term.convertible_mono (Nat.le_max_left n bound) _ _

/-- At a later time a type and its representative of now have been resolved to the same. -/
theorem resolve_find_later {R : Region} {d : TypeContext} (hc : c.known.Acyclic)
    (hd : Grows R c.known d.known) (m : Monotype) : d.resolve (c.find m) = d.resolve m := by
  have hrep : d.resolve (c.resolve (c.find m)) = d.resolve (c.find m) :=
    Grows.resolve_resolve hd hc (c.find m)
  have hself : d.resolve (c.resolve m) = d.resolve m := Grows.resolve_resolve hd hc m
  rw [← hrep, resolve_find hc, hself]

/-- What cannot be compared in a part cannot be compared in the whole. -/
theorem Stuck.of_parts {R : Region} {d : TypeContext} {a b p q : Monotype} (hc : c.known.Acyclic)
    (hd : Grows R c.known d.known) (havar : (c.find a).isVariable = false)
    (hbvar : (c.find b).isVariable = false) (hp : p ∈ (c.find a).parts) (hq : q ∈ (c.find b).parts)
    {f : Fault} (h : Stuck natives p q f d) : Stuck natives a b f d := by
  have hmem : ∀ {m p : Monotype}, (c.find m).isVariable = false → p ∈ (c.find m).parts →
      ∀ t ∈ (d.resolve p).indexTerms, t ∈ (d.resolve m).indexTerms := by
    intro m p hvar hp t ht
    rw [← resolve_find_later hc hd m]
    exact (Monotype.mem_indexTerms_iff_parts (Classes.isVariable_resolve (c := d.known) hvar)).mpr
      (Or.inr ⟨_, Classes.resolve_mem_parts hvar hp, ht⟩)
  obtain ⟨s, hs, t, ht, hfails⟩ := h
  exact ⟨s, hmem havar hp s hs, t, hmem hbvar hq t ht, hfails⟩

theorem Stuck.of_index {R : Region} {d : TypeContext} {a b : Monotype} {i j : Term × Monotype}
    (hc : c.known.Acyclic) (hd : Grows R c.known d.known) (havar : (c.find a).isVariable = false)
    (hbvar : (c.find b).isVariable = false) (hi : i ∈ indexOf (c.find a))
    (hj : j ∈ indexOf (c.find b)) {f : Fault}
    (h : Fails natives f (d.findKind i.1) (d.findKind j.1)) : Stuck natives a b f d := by
  have hmem : ∀ {m : Monotype} {j : Term × Monotype}, (c.find m).isVariable = false →
      j ∈ indexOf (c.find m) → d.findKind j.1 ∈ (d.resolve m).indexTerms := by
    intro m j hvar hj
    rw [← resolve_find_later hc hd m]
    refine (Monotype.mem_indexTerms_iff_parts (Classes.isVariable_resolve (c := d.known) hvar)).mpr
      (Or.inl ⟨(d.findKind j.1, d.resolve j.2), ?_, rfl⟩)
    rw [Classes.indexOf_resolve hvar]
    exact List.mem_map_of_mem hj
  exact ⟨_, hmem havar hi, _, hmem hbvar hj, h⟩

/-- With every step to a part the measure goes down: a variable has been bound since, or the resolved
type is lighter. -/
theorem measure_part {vars : List TypeVariable} {d : TypeContext} {a p : Monotype}
    (hc : c.known.Acyclic) (havar : (c.find a).isVariable = false) (hp : p ∈ (c.find a).parts)
    (hd : Grows (.within vars) c.known d.known) :
    d.known.unboundIn vars < c.known.unboundIn vars ∨
      d.known.unboundIn vars = c.known.unboundIn vars ∧
        (d.resolve p).weight < (c.resolve a).weight := by
  rcases Grows.measure hd hc with hlt | ⟨heq, hweight⟩
  · exact Or.inl hlt
  · have hlt : (c.resolve p).weight < (c.resolve (c.find a)).weight :=
      Monotype.weight_lt_of_mem_parts (Classes.resolve_mem_parts (c := c.known) havar hp)
    have hsame : (d.resolve p).weight = (c.resolve p).weight := hweight p
    rw [resolve_find hc] at hlt
    exact Or.inr ⟨heq, by omega⟩

section Settles

variable {P : Monotype → Prop} {excused : Fault → Prop} (hP : Monotype.Pervasive P)

/-- The classes have grown within the region, and everything in them has the property. -/
structure Stays (R : Region) (P : Monotype → Prop) (c d : TypeContext) : Prop where
  grows : Grows R c.known d.known
  throughout : d.known.types.Throughout P

include hP

/-- The parts of two types settle if all lighter pairs do, and all pairs once a variable of the
region has been bound. -/
theorem unifyParts_settles {vars : List TypeVariable} {a b : Monotype} (hc : c.known.Acyclic)
    (havar : (c.find a).isVariable = false) (hbvar : (c.find b).isVariable = false)
    (ha : (Region.within vars).Holds (c.resolve a)) (hb : (Region.within vars).Holds (c.resolve b))
    (haP : P (c.find a)) (hbP : P (c.find b))
    (hless : ∀ {d : TypeContext} {p q : Monotype}, d.known.Acyclic → d.known.types.Throughout P →
      P p → P q → (Region.within vars).Holds (d.resolve p) →
      (Region.within vars).Holds (d.resolve q) →
      d.known.unboundIn vars < c.known.unboundIn vars ∨
        d.known.unboundIn vars = c.known.unboundIn vars ∧
          (d.resolve p).weight < (c.resolve a).weight →
      Settles (fun n => unify natives n p q) (fun f d => Stuck natives p q f d ∨ excused f) d)
    {d : TypeContext} (hd : Stays (.within vars) P c d) :
    Settles (fun n => unifyParts (unify natives n) (unifyKind natives n) (c.find a) (c.find b))
      (fun f d => Stuck natives a b f d ∨ excused f) d := by
  rw [← resolve_find hc] at ha hb
  have hkeeps : ∀ p ∈ (c.find a).parts, ∀ q ∈ (c.find b).parts, ∀ n,
      Keeps (Stays (.within vars) P c) (unify natives n p q) := by
    intro p hp q hq n d hd
    refine ⟨hd.grows.trans (unify_grows n (hd.grows.acyclic hc) (holds_part hc havar ha hp hd.grows)
      (holds_part hc hbvar hb hq hd.grows)), ?_⟩
    exact unify_keeps_throughout hP id (fun h _ => h) n (hP.part haP hp) (hP.part hbP hq) d
      hd.throughout
  have hkeepsIndex : ∀ i ∈ indexOf (c.find a), ∀ j ∈ indexOf (c.find b), ∀ n,
      Keeps (Stays (.within vars) P c) (unifyKind natives n i.1 j.1) := by
    intro i hi j hj n d hd
    refine ⟨hd.grows.trans (unifyKind_grows n (hd.grows.acyclic hc) (holds_index hc havar ha hi hd.grows)
      (holds_index hc hbvar hb hj hd.grows)), ?_⟩
    exact unifyKind_keeps_throughout n i.1 j.1 d hd.throughout
  have hparts : ∀ p ∈ (c.find a).parts, ∀ q ∈ (c.find b).parts, ∀ d : TypeContext,
      Stays (.within vars) P c d →
      Settles (fun n => unify natives n p q) (fun f d => Stuck natives a b f d ∨ excused f) d := by
    intro p hp q hq d hd
    have hsettles : Settles (fun n => unify natives n p q)
        (fun f d => Stuck natives p q f d ∨ excused f) d := by
      exact hless (hd.grows.acyclic hc) hd.throughout (hP.part haP hp) (hP.part hbP hq)
        (holds_part hc havar ha hp hd.grows) (holds_part hc hbvar hb hq hd.grows)
        (measure_part hc havar hp hd.grows)
    refine hsettles.imp fun n f hstuck => hstuck.imp_left fun hstuck => ?_
    exact hstuck.of_parts hc (hkeeps p hp q hq n d hd).grows havar hbvar hp hq
  have hindex : ∀ i ∈ indexOf (c.find a), ∀ j ∈ indexOf (c.find b), ∀ d : TypeContext,
      Stays (.within vars) P c d →
      Settles (fun n => unifyIndexWith (unify natives n) (unifyKind natives n) i j)
        (fun f d => Stuck natives a b f d ∨ excused f) d := by
    intro i hi j hj d hd
    refine .andThen ((unifyKind_settles i.1 j.1).imp fun n f hfails => ?_) fun n e he => ?_
    · exact .inl (.of_index hc (hkeepsIndex i hi j hj n d hd).grows havar hbvar hi hj hfails)
    · have he' := hkeepsIndex i hi j hj n d hd
      rw [he, endOf_ok] at he'
      exact hparts i.2 (Monotype.mem_parts_of_index hi) j.2
        (Monotype.mem_parts_of_index hj) e he'
  have hkeepsParams : ∀ p ∈ (c.find a).params, ∀ q ∈ (c.find b).params, ∀ n,
      Keeps (Stays (.within vars) P c) (unify natives n p q) :=
    fun p hp q hq => hkeeps p (Monotype.mem_parts_of_params hp) q (Monotype.mem_parts_of_params hq)
  -- the indices start where the parameters have ended
  refine .andThen (.pairwise hkeepsParams (fun p hp q hq =>
    hparts p (Monotype.mem_parts_of_params hp) q (Monotype.mem_parts_of_params hq)) hd)
    fun n e he => ?_
  have he' : Stays (.within vars) P c e := by
    have hkeep := keeps_pairwise (fun p hp q hq => hkeepsParams p hp q hq n) d hd
    rwa [he] at hkeep
  refine .pairwise (fun i hi j hj n => ?_) hindex he'
  exact keeps_andThen (hkeepsIndex i hi j hj n) (hkeeps i.2 (Monotype.mem_parts_of_index hi)
    j.2 (Monotype.mem_parts_of_index hj) n)

/-- With enough fuel, unification of types of the sort ends in one way, and with a fault only if it
cannot compare two index terms or is excused since it cannot write a type of the sort. -/
theorem unify_settles_or (hexcused : ∀ {m f}, P m → m.render = .error f → excused f)
    {a b : Monotype} (hc : c.known.Acyclic) (hcP : c.known.types.Throughout P) (haP : P a) (hbP : P b) :
    Settles (fun n => unify natives n a b) (fun f d => Stuck natives a b f d ∨ excused f) c := by
  obtain ⟨vars, ha, hb⟩ : ∃ vars, (Region.within vars).Holds (c.resolve a) ∧
      (Region.within vars).Holds (c.resolve b) :=
    ⟨(c.resolve a).occurrences ++ (c.resolve b).occurrences,
      Region.within_holds fun v hv => List.mem_append_left _ hv,
      Region.within_holds fun v hv => List.mem_append_right _ hv⟩
  -- outside, variables become bound; inside, the first type becomes lighter
  induction hu : c.known.unboundIn vars using Nat.strongRecOn generalizing a b c with
  | ind u ihu =>
      induction hw : (c.resolve a).weight using Nat.strongRecOn generalizing a b c with
      | ind w ihw =>
          apply Settles.succ
          rcases unify_uniform natives a b c with ⟨result, hrun, hfault⟩ | ⟨havar, hbvar, step, hrun⟩
          · refine ⟨result, 0, fun n _ => hrun n, fun f d hf => ?_⟩
            obtain ⟨m, hm, hwritten⟩ := hfault f d hf
            exact .inr (hexcused (hm.has hP hcP haP hbP) hwritten)
          refine .of_eq hrun ?_
          refine unifyParts_settles hP hc havar hbvar ha hb (throughout_find hcP haP)
            (throughout_find hcP hbP) (fun hd hdP hp hq hp' hq' hmeasure => ?_) ?_
          · rcases hmeasure with hlt | ⟨heq, hlt⟩
            · exact ihu _ (hu ▸ hlt) hd hdP hp hq hp' hq' rfl
            · exact ihw _ (hw ▸ hlt) hd hdP hp hq hp' hq' (heq.trans hu) rfl
          · exact ⟨by rw [known_noted], by rwa [known_noted]⟩

end Settles

/-- With enough fuel, unification ends in one way. If that is a fault, it cannot compare two index
terms, or some name cannot be cut and not everything is well split. -/
theorem unify_settles {a b : Monotype} (hc : c.known.Acyclic) :
    Settles (fun n => unify natives n a b)
      (fun f d => Stuck natives a b f d ∨ f.IsCut ∧ ¬c.WellSplit a b) c :=
  unify_settles_or (Monotype.pervasive_isWellSplit.under (c.WellSplit a b))
    Monotype.cut_of_error hc (WellSplit.throughout c a b) (·.left) (·.right)

/-- If no index term is left in the two resolved types, then none turns up in a run. -/
theorem not_stuck_of_indexTerms_eq_nil {n : Nat} {a b : Monotype} (hc : c.known.Acyclic)
    (ha : (c.resolve a).indexTerms = []) (hb : (c.resolve b).indexTerms = []) (f : Fault) :
    ¬Stuck natives a b f (endOf (unify natives n a b c)) := by
  have hnone : ∀ {m : Monotype}, m.indexTerms = [] →
      Region.Holds ⟨fun _ => True, fun _ => False⟩ m := by
    intro m hm
    refine ⟨fun _ _ => trivial, fun t ht => ?_⟩
    rw [hm] at ht
    cases ht
  rintro ⟨s, hs, -⟩
  have hgrows : Grows ⟨fun _ => True, fun _ => False⟩ c.known
      (endOf (unify natives n a b c)).known := unify_grows n hc (hnone ha) (hnone hb)
  exact (Grows.holds hgrows hc (hnone ha)).terms s hs

/-- Without index terms only a name that cannot be cut keeps unification from a status. -/
theorem unify_settles_of_indexTerms_eq_nil {a b : Monotype} (hc : c.known.Acyclic)
    (ha : (c.resolve a).indexTerms = []) (hb : (c.resolve b).indexTerms = []) :
    Settles (fun n => unify natives n a b) (fun f _ => f.IsCut ∧ ¬c.WellSplit a b) c :=
  (unify_settles hc).imp fun _ f hstuck =>
    hstuck.resolve_left (not_stuck_of_indexTerms_eq_nil hc ha hb f)

/-- And if everything is well split, then it ends in a status. -/
theorem unify_settles_ok {a b : Monotype} (hc : c.known.Acyclic)
    (ha : (c.resolve a).indexTerms = []) (hb : (c.resolve b).indexTerms = [])
    (hsplit : c.WellSplit a b) :
    ∃ status d bound, ∀ n, bound ≤ n → unify natives n a b c = .ok status d := by
  obtain ⟨result, bound, hresult, hfault⟩ :
    Settles (fun n => unify natives n a b) (fun f _ => f.IsCut ∧ ¬c.WellSplit a b) c :=
    unify_settles_of_indexTerms_eq_nil hc ha hb
  cases result with
  | ok status d => exact ⟨status, d, bound, hresult⟩
  | error f d => exact absurd hsplit (hfault f d rfl).2

/-! ## Nothing leads back to itself -/

/-- A type variable is bound to a type in which another one occurs. -/
def BoundInto (c : TypeContext) (v w : TypeVariable) : Prop :=
  ∃ m, c.classes.get? v.key = some m ∧ w ∈ m.occurrences

/-- An index variable is bound to another one. -/
def BoundToIndex (c : TypeContext) (v w : Variable) : Prop := c.kinds.get? v.key = some (.var w)

theorem not_boundInto_cycle (hc : c.known.Acyclic) (v : TypeVariable) :
    ¬TransGen c.BoundInto v v := by
  obtain ⟨rank, hrank⟩ := hc.types
  have hdown : ∀ {v w}, TransGen c.BoundInto v w → rank w < rank v := by
    intro v w h
    induction h with
    | single h =>
        obtain ⟨m, hm, hw⟩ := h
        exact hrank _ m hm _ hw
    | tail _ h ih =>
        obtain ⟨m, hm, hw⟩ := h
        have hlt := hrank _ m hm _ hw
        omega
  intro h
  have hlt := hdown h
  omega

theorem not_boundToIndex_cycle (hc : c.known.Acyclic) (v : Variable) :
    ¬TransGen c.BoundToIndex v v := by
  obtain ⟨rank, hrank⟩ := hc.kinds
  have hdown : ∀ {v w}, TransGen c.BoundToIndex v w → rank w < rank v := by
    intro v w h
    induction h with
    | single h => exact hrank _ _ h
    | tail _ h ih =>
        have hlt := hrank _ _ h
        omega
  intro h
  have hlt := hdown h
  omega

theorem hasInside_resolve_var (hc : c.known.Acyclic) (v : TypeVariable) :
    (c.resolve (.var v)).hasInside v = false := by
  refine Bool.eq_false_iff.mpr fun h => ?_
  obtain ⟨hvar, hocc⟩ := Monotype.hasInside_iff.mp h
  -- a variable that is left is not bound, so it is its own resolved type
  have hself : c.resolve (.var v) = .var v :=
    Classes.resolve_var_of_none (hc.get?_eq_none_of_mem_resolve hocc)
  rw [hself] at hvar
  cases hvar

/-- **No cyclic class.** No sequence of operations makes one. The relation that leads from a variable to
the variables of its binding has no cycle, and neither has the one between index variables; so the plain
loops end, with the representative and the resolved type as their answers, and no variable is inside
its own resolved type. Unification ends on any two types. It is kept from a status only if it has to
compare two index terms of them whose comparison does not end or ends in a fault, or if a name in them
or in the classes cannot be cut; without index terms the first of these cannot happen. -/
theorem Reachable.no_cyclic_class {c : TypeContext} (h : Reachable (fun _ => True) c) :
    (∀ v, ¬TransGen c.BoundInto v v) ∧ (∀ v, ¬TransGen c.BoundToIndex v v) ∧
    (∀ m, Ends (fun n => c.classes.follow n m) (c.find m)) ∧
    (∀ t, Ends (fun n => c.kinds.follow n t) (c.findKind t)) ∧
    (∀ m, Ends (fun n => c.known.unfold n m) (c.resolve m)) ∧
    (∀ v, (c.resolve (.var v)).hasInside v = false) ∧
    (∀ natives a b, ∃ result bound, (∀ n, bound ≤ n → unify natives n a b c = result) ∧
      ∀ f d, result = .error f d →
        (∃ s ∈ (d.resolve a).indexTerms, ∃ t ∈ (d.resolve b).indexTerms, Fails natives f s t) ∨
          f.IsCut ∧ ¬c.WellSplit a b) ∧
    ∀ natives a b, (c.resolve a).indexTerms = [] → (c.resolve b).indexTerms = [] →
      (∃ result bound, (∀ n, bound ≤ n → unify natives n a b c = result) ∧
        ∀ f d, result = .error f d → f.IsCut ∧ ¬c.WellSplit a b) ∧
      (c.WellSplit a b →
        ∃ status d bound, ∀ n, bound ≤ n → unify natives n a b c = .ok status d) := by
  have hc := h.acyclic
  refine ⟨not_boundInto_cycle hc, not_boundToIndex_cycle hc, hc.follow_type, hc.follow_kind,
    hc.unfold_resolve, hasInside_resolve_var hc, ?_, ?_⟩
  · intro natives a b
    exact unify_settles hc
  · intro natives a b ha hb
    exact ⟨unify_settles_of_indexTerms_eq_nil hc ha hb, unify_settles_ok hc ha hb⟩

/-- `a` has been bound to the lists of `b`, and binding `b` to the lists of `a` has failed. The
classes have no cycle, and to unify the two still ends. -/
theorem no_cyclic_class_after_occurs_check :
    let natives : InstructionSet := fun _ _ => .fail none
    let a : Monotype := .var ⟨"a", 0⟩
    let b : Monotype := .var ⟨"b", 0⟩
    let c := Operation.run (Operation.run (startingAt 0 0) (.unify ⟨natives, 5⟩ a (.list b)))
      (.unify ⟨natives, 5⟩ b (.list a))
    Reachable (fun _ => True) c ∧ c.find a = .list b ∧ c.find b = b ∧ c.WellSplit a b ∧
      (∀ v, ¬TransGen c.BoundInto v v) ∧
      ∃ status d bound, ∀ n, bound ≤ n → unify natives n a b c = .ok status d := by
  intro natives a b c
  have hc : Reachable (fun _ => True) c :=
    ⟨0, 0, .tail (.single ⟨_, trivial, rfl⟩) ⟨_, trivial, rfl⟩⟩
  have hclaim := Reachable.no_cyclic_class hc
  have hsplit : c.WellSplit a b := by
    have hclasses : c.known.types = ClassMap.empty.bind "a#0" (.list b) := rfl
    refine ⟨?_, rfl, rfl⟩
    rw [hclasses]
    exact ClassMap.Throughout.bind (fun key m h => by simp at h) _ (by decide)
  refine ⟨hc, by decide, by decide, hsplit, hclaim.1, ?_⟩
  exact (hclaim.2.2.2.2.2.2.2 natives a b (by decide) (by decide)).2 hsplit

end TypeContext

end IndexedLambda
