import IndexedLambda.Term.Basic
/-!
# Disciplines: what may stand where in a term

Several properties of terms ask something of each variable occurrence, given the binders around it,
and something of each abstraction, instruction and recursive block on the way: that names and depths
agree, that nothing is unassigned, that no instruction occurs. A `Discipline` is such a list of
demands and `Term.Respects` says that a term meets them everywhere. A lemma about a walk over a term
is then proved once for all of these properties.

The binders around a place form its *scope*, a list of names with the innermost one first, so that
an occurrence of depth `d + 1` points to entry `d`. Depth `0` points nowhere, and a depth past the end
of the scope is free.
-/

namespace IndexedLambda

/-- The scope of the body of an abstraction. Binders are listed outermost first, scopes innermost
first. -/
def under (binders : List Variable) (scope : List String) : List String :=
  (binders.map (·.name)).reverse ++ scope

@[simp] theorem under_nil (scope : List String) : under [] scope = scope := rfl

theorem under_cons (v : Variable) (binders : List Variable) (scope : List String) :
    under (v :: binders) scope = under binders (v.name :: scope) := by
  simp [under]

@[simp] theorem length_under (binders : List Variable) (scope : List String) :
    (under binders scope).length = scope.length + binders.length := by
  simp [under, Nat.add_comm]

theorem under_append (binders : List Variable) (inner outer : List String) :
    under binders (inner ++ outer) = under binders inner ++ outer := by
  simp [under]

/-- Demands on the parts of a term. An occurrence and a list of binders are judged within their
scope, an instruction by the number of arguments it holds, a recursive block by the number of its
definitions. -/
structure Discipline where
  occurrence : List String → Variable → Prop
  binders : List String → List Variable → Prop
  arguments : InstructionHead → Nat → Prop
  definitions : Nat → Prop

/-- No demands. -/
def Discipline.any : Discipline where
  occurrence _ _ := True
  binders _ _ := True
  arguments _ _ := True
  definitions _ := True

/-- Both lists of demands. -/
def Discipline.and (d e : Discipline) : Discipline where
  occurrence scope v := d.occurrence scope v ∧ e.occurrence scope v
  binders scope vs := d.binders scope vs ∧ e.binders scope vs
  arguments head n := d.arguments head n ∧ e.arguments head n
  definitions n := d.definitions n ∧ e.definitions n

/-- The demands can be decided. -/
class Discipline.Decides (d : Discipline) where
  occurrence : ∀ scope v, Decidable (d.occurrence scope v)
  binders : ∀ scope vs, Decidable (d.binders scope vs)
  arguments : ∀ head n, Decidable (d.arguments head n)
  definitions : ∀ n, Decidable (d.definitions n)

attribute [reducible, instance] Discipline.Decides.occurrence Discipline.Decides.binders
  Discipline.Decides.arguments Discipline.Decides.definitions

instance (d e : Discipline) [d.Decides] [e.Decides] : (d.and e).Decides where
  occurrence scope v := inferInstanceAs (Decidable (d.occurrence scope v ∧ e.occurrence scope v))
  binders scope vs := inferInstanceAs (Decidable (d.binders scope vs ∧ e.binders scope vs))
  arguments head n := inferInstanceAs (Decidable (d.arguments head n ∧ e.arguments head n))
  definitions n := inferInstanceAs (Decidable (d.definitions n ∧ e.definitions n))

namespace Term

mutual
/-- The term meets the demands everywhere, within the given scope. -/
def Respects (d : Discipline) (scope : List String) : Term → Prop
  | .var v => d.occurrence scope v
  | .abs binders body => d.binders scope binders ∧ Respects d (under binders scope) body
  | .app l r => Respects d scope l ∧ Respects d scope r
  | .const _ => True
  | .list elems => RespectsList d scope elems
  | .instr head args => d.arguments head args.length ∧ RespectsList d scope args
  | .define _ _ a b => Respects d scope a ∧ Respects d scope b
  | .recur defs b =>
    d.definitions defs.length ∧ RespectsDefs d scope defs ∧ Respects d scope b
/-- `Respects` for every element. -/
def RespectsList (d : Discipline) (scope : List String) : List Term → Prop
  | [] => True
  | t :: ts => Respects d scope t ∧ RespectsList d scope ts
/-- `Respects` for every assignment. -/
def RespectsDefs (d : Discipline) (scope : List String) : List (String × Term) → Prop
  | [] => True
  | (_, t) :: defs => Respects d scope t ∧ RespectsDefs d scope defs
end

variable {d e : Discipline} {scope : List String}

theorem respectsList_iff {ts : List Term} :
    RespectsList d scope ts ↔ ∀ t ∈ ts, t.Respects d scope := by
  induction ts with
  | nil => exact ⟨fun _ _ ht => absurd ht List.not_mem_nil, fun _ => trivial⟩
  | cons t ts ih =>
      rw [List.forall_mem_cons, ← ih]
      exact Iff.rfl

theorem respectsDefs_iff {defs : List (String × Term)} :
    RespectsDefs d scope defs ↔ ∀ p ∈ defs, p.2.Respects d scope := by
  induction defs with
  | nil => exact ⟨fun _ _ hp => absurd hp List.not_mem_nil, fun _ => trivial⟩
  | cons p defs ih =>
      rw [List.forall_mem_cons, ← ih]
      exact Iff.rfl

@[simp] theorem respects_var {v : Variable} :
    (Term.var v).Respects d scope ↔ d.occurrence scope v := Iff.rfl

@[simp] theorem respects_abs {binders : List Variable} {body : Term} :
    (Term.abs binders body).Respects d scope ↔
      d.binders scope binders ∧ body.Respects d (under binders scope) := Iff.rfl

@[simp] theorem respects_app {l r : Term} :
    (Term.app l r).Respects d scope ↔ l.Respects d scope ∧ r.Respects d scope := Iff.rfl

@[simp] theorem respects_const {c : String} : (Term.const c).Respects d scope := trivial

@[simp] theorem respects_list {elems : List Term} :
    (Term.list elems).Respects d scope ↔ ∀ t ∈ elems, t.Respects d scope := respectsList_iff

@[simp] theorem respects_instr {head : InstructionHead} {args : List Term} :
    (Term.instr head args).Respects d scope ↔
      d.arguments head args.length ∧ ∀ t ∈ args, t.Respects d scope :=
  and_congr_right' respectsList_iff

@[simp] theorem respects_define {form : LetForm} {x : String} {a b : Term} :
    (Term.define form x a b).Respects d scope ↔ a.Respects d scope ∧ b.Respects d scope := Iff.rfl

@[simp] theorem respects_recur {defs : List (String × Term)} {b : Term} :
    (Term.recur defs b).Respects d scope ↔
      d.definitions defs.length ∧ (∀ p ∈ defs, p.2.Respects d scope) ∧ b.Respects d scope :=
  and_congr_right' (and_congr_left' respectsDefs_iff)

theorem respects_any (scope : List String) (t : Term) : t.Respects .any scope := by
  induction t using induction_on generalizing scope with
  | var v => exact trivial
  | abs binders body ih => exact respects_abs.mpr ⟨trivial, ih _⟩
  | app l r ihl ihr => exact respects_app.mpr ⟨ihl _, ihr _⟩
  | const c => exact respects_const
  | list elems ih => exact respects_list.mpr fun t ht => ih t ht _
  | instr head args ih => exact respects_instr.mpr ⟨trivial, fun t ht => ih t ht _⟩
  | define form x a b iha ihb => exact respects_define.mpr ⟨iha _, ihb _⟩
  | recur defs b ihd ihb => exact respects_recur.mpr ⟨trivial, fun p hp => ihd p hp _, ihb _⟩

theorem respects_and {t : Term} :
    t.Respects (d.and e) scope ↔ t.Respects d scope ∧ t.Respects e scope := by
  have each {α : Type} {as : List α} {p q r : α → Prop} (h : ∀ a ∈ as, (p a ↔ q a ∧ r a)) :
      (∀ a ∈ as, p a) ↔ (∀ a ∈ as, q a) ∧ ∀ a ∈ as, r a :=
    ⟨fun hp => ⟨fun a ha => ((h a ha).mp (hp a ha)).1, fun a ha => ((h a ha).mp (hp a ha)).2⟩,
      fun hqr a ha => (h a ha).mpr ⟨hqr.1 a ha, hqr.2 a ha⟩⟩
  induction t using induction_on generalizing scope with
  | var v => exact Iff.rfl
  | abs binders body ih =>
      rw [respects_abs, respects_abs, respects_abs]
      exact (and_congr_right' ih).trans and_and_and_comm
  | app l r ihl ihr =>
      rw [respects_app, respects_app, respects_app]
      exact (and_congr ihl ihr).trans and_and_and_comm
  | const c => simp
  | list elems ih =>
      rw [respects_list, respects_list, respects_list]
      exact each fun t ht => ih t ht
  | instr head args ih =>
      rw [respects_instr, respects_instr, respects_instr]
      exact (and_congr_right' (each fun t ht => ih t ht)).trans and_and_and_comm
  | define form x a b iha ihb =>
      rw [respects_define, respects_define, respects_define]
      exact (and_congr iha ihb).trans and_and_and_comm
  | recur defs b ihd ihb =>
      rw [respects_recur, respects_recur, respects_recur]
      exact (and_congr_right' ((and_congr (each fun p hp => ihd p hp) ihb).trans
        and_and_and_comm)).trans and_and_and_comm

/-! ## Deciding -/

section Decide

variable (d) [d.Decides]

mutual
/-- A discipline whose demands can be decided can be checked. -/
def decideRespects (scope : List String) : (t : Term) → Decidable (t.Respects d scope)
  | .var v => inferInstanceAs (Decidable (d.occurrence scope v))
  | .abs binders body =>
    have := decideRespects (under binders scope) body
    inferInstanceAs (Decidable (d.binders scope binders ∧ body.Respects d (under binders scope)))
  | .app l r =>
    have := decideRespects scope l
    have := decideRespects scope r
    inferInstanceAs (Decidable (l.Respects d scope ∧ r.Respects d scope))
  | .const _ => inferInstanceAs (Decidable True)
  | .list elems => decideRespectsList scope elems
  | .instr head args =>
    have := decideRespectsList scope args
    inferInstanceAs (Decidable (d.arguments head args.length ∧ RespectsList d scope args))
  | .define _ _ a b =>
    have := decideRespects scope a
    have := decideRespects scope b
    inferInstanceAs (Decidable (a.Respects d scope ∧ b.Respects d scope))
  | .recur defs b =>
    have := decideRespectsDefs scope defs
    have := decideRespects scope b
    inferInstanceAs (Decidable
      (d.definitions defs.length ∧ RespectsDefs d scope defs ∧ b.Respects d scope))
/-- `decideRespects` for every element. -/
def decideRespectsList (scope : List String) :
    (ts : List Term) → Decidable (RespectsList d scope ts)
  | [] => inferInstanceAs (Decidable True)
  | t :: ts =>
    have := decideRespects scope t
    have := decideRespectsList scope ts
    inferInstanceAs (Decidable (t.Respects d scope ∧ RespectsList d scope ts))
/-- `decideRespects` for every assignment. -/
def decideRespectsDefs (scope : List String) :
    (defs : List (String × Term)) → Decidable (RespectsDefs d scope defs)
  | [] => inferInstanceAs (Decidable True)
  | (_, t) :: defs =>
    have := decideRespects scope t
    have := decideRespectsDefs scope defs
    inferInstanceAs (Decidable (t.Respects d scope ∧ RespectsDefs d scope defs))
end

instance (t : Term) : Decidable (t.Respects d scope) := decideRespects d scope t

end Decide

end Term

end IndexedLambda
