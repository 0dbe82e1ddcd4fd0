import IndexedLambda.Proofs.Sequencing
import IndexedLambda.Proofs.Term.Discipline
import IndexedLambda.Term.Substitution
/-!
# Rewriting occurrences

`Term.traverse` is the walk behind shifting, binding and substitution. It carries a state and may
fault. `Term.rewrite` is the same walk as a plain function: it puts a term in the place of each
occurrence, given the occurrence and the number of binders passed on the way to it. Its laws are few
(`rewrite_rewrite`, `rewrite_add`, `Respects.rewrite_congr`, `Respects.rewrite`), and they hold for
every rewriting, so a law of substitution comes down to a statement about one occurrence.

`traverse_agrees` ties the two walks together. It is stated for a `Verdict`, which is either "if there
is a result, it is this one" or "the result is this one", so that correctness and the absence of
faults have one proof. `Respects.of_traverse_eq_ok` reads off a walk that ended what it has met.
-/

namespace IndexedLambda

namespace Term

section Rewrite

variable (visit : Nat → Variable → Term)

mutual
/-- Replaces every occurrence by what `visit` gives for it and for the number of binders around it,
the first `passed` of which lie outside the term. -/
def rewrite (passed : Nat) : Term → Term
  | .var v => visit passed v
  | .abs binders body => .abs binders (rewrite (passed + binders.length) body)
  | .app l r => .app (rewrite passed l) (rewrite passed r)
  | .const c => .const c
  | .list elems => .list (rewriteList passed elems)
  | .instr head args => .instr head (rewriteList passed args)
  | .define form x a b => .define form x (rewrite passed a) (rewrite passed b)
  | .recur defs b => .recur (rewriteDefs passed defs) (rewrite passed b)
/-- `rewrite` on every element. -/
def rewriteList (passed : Nat) : List Term → List Term
  | [] => []
  | t :: ts => rewrite passed t :: rewriteList passed ts
/-- `rewrite` on every assignment. -/
def rewriteDefs (passed : Nat) : List (String × Term) → List (String × Term)
  | [] => []
  | (x, t) :: defs => (x, rewrite passed t) :: rewriteDefs passed defs
end

end Rewrite

variable {visit f g : Nat → Variable → Term} {i j : Nat}

theorem rewriteList_eq_map (ts : List Term) : rewriteList visit j ts = ts.map (rewrite visit j) := by
  induction ts with
  | nil => rfl
  | cons t ts ih => exact congrArg (t.rewrite visit j :: ·) ih

theorem rewriteDefs_eq_map (defs : List (String × Term)) :
    rewriteDefs visit j defs = defs.map fun p => (p.1, p.2.rewrite visit j) := by
  induction defs with
  | nil => rfl
  | cons p defs ih => exact congrArg ((p.1, p.2.rewrite visit j) :: ·) ih

@[simp] theorem rewrite_var (v : Variable) : (Term.var v).rewrite visit j = visit j v := rfl

@[simp] theorem rewrite_abs (binders : List Variable) (body : Term) :
    (Term.abs binders body).rewrite visit j =
      .abs binders (body.rewrite visit (j + binders.length)) := rfl

@[simp] theorem rewrite_app (l r : Term) :
    (Term.app l r).rewrite visit j = .app (l.rewrite visit j) (r.rewrite visit j) := rfl

@[simp] theorem rewrite_const (c : String) : (Term.const c).rewrite visit j = .const c := rfl

@[simp] theorem rewrite_list (elems : List Term) :
    (Term.list elems).rewrite visit j = .list (elems.map (rewrite visit j)) :=
  congrArg Term.list (rewriteList_eq_map elems)

@[simp] theorem rewrite_instr (head : InstructionHead) (args : List Term) :
    (Term.instr head args).rewrite visit j = .instr head (args.map (rewrite visit j)) :=
  congrArg (Term.instr head) (rewriteList_eq_map args)

@[simp] theorem rewrite_define (form : LetForm) (x : String) (a b : Term) :
    (Term.define form x a b).rewrite visit j =
      .define form x (a.rewrite visit j) (b.rewrite visit j) := rfl

@[simp] theorem rewrite_recur (defs : List (String × Term)) (b : Term) :
    (Term.recur defs b).rewrite visit j =
      .recur (defs.map fun p => (p.1, p.2.rewrite visit j)) (b.rewrite visit j) :=
  congrArg (Term.recur · (b.rewrite visit j)) (rewriteDefs_eq_map defs)

/-- Around the `n` remaining binders of an abstraction a rewriting has passed `n` binders less. -/
theorem rewrite_wrap (rest : List Variable) (t : Term) :
    (wrap rest t).rewrite visit j = wrap rest (t.rewrite visit (j + rest.length)) := by
  cases rest with
  | nil => rfl
  | cons v rest => exact rewrite_abs (v :: rest) t

/-! ## Laws -/

/-- Two rewritings in a row are one: the second acts on what the first has inserted, in its place. -/
theorem rewrite_rewrite (t : Term) :
    (t.rewrite f j).rewrite g j = t.rewrite (fun j v => (f j v).rewrite g j) j := by
  induction t using induction_on generalizing j with
  | var v => simp
  | abs binders body ih => simp [ih]
  | app l r ihl ihr => simp [ihl, ihr]
  | const c => simp
  | list elems ih => simpa using fun t ht => ih t ht
  | instr head args ih => simpa using fun t ht => ih t ht
  | define form x a b iha ihb => simp [iha, ihb]
  | recur defs b ihd ihb => simpa [ihb] using fun x t ht => ihd (x, t) ht

theorem rewrite_id (t : Term) : t.rewrite (fun _ v => .var v) j = t := by
  induction t using induction_on generalizing j with
  | var v => simp
  | abs binders body ih => simp [ih]
  | app l r ihl ihr => simp [ihl, ihr]
  | const c => simp
  | list elems ih =>
      rw [rewrite_list, List.map_congr_left fun t ht => ih t ht, List.map_id']
  | instr head args ih =>
      rw [rewrite_instr, List.map_congr_left fun t ht => ih t ht, List.map_id']
  | define form x a b iha ihb => simp [iha, ihb]
  | recur defs b ihd ihb =>
      have hdefs : ∀ p ∈ defs, (p.1, p.2.rewrite (fun _ v => .var v) j) = p := fun p hp => by
        rw [ihd p hp]
      rw [rewrite_recur, List.map_congr_left hdefs, List.map_id', ihb]

theorem rewrite_add (t : Term) :
    t.rewrite visit (i + j) = t.rewrite (fun j v => visit (i + j) v) j := by
  induction t using induction_on generalizing j with
  | var v => simp
  | abs binders body ih => simp [← ih, Nat.add_assoc]
  | app l r ihl ihr => simp [ihl, ihr]
  | const c => simp
  | list elems ih => simpa using fun t ht => ih t ht
  | instr head args ih => simpa using fun t ht => ih t ht
  | define form x a b iha ihb => simp [iha, ihb]
  | recur defs b ihd ihb => simpa [ihb] using fun x t ht => ihd (x, t) ht

/-- Two rewritings that agree on the occurrences a discipline allows agree on the terms that respect
it. -/
theorem Respects.rewrite_congr_within {d : Discipline} {outer : List String} {t : Term}
    (inner : List String) (ht : t.Respects d (inner ++ outer))
    (h : ∀ inner v, d.occurrence (inner ++ outer) v → f inner.length v = g inner.length v) :
    t.rewrite f inner.length = t.rewrite g inner.length := by
  induction t using induction_on generalizing inner with
  | var v => simpa using h inner v (by simpa using ht)
  | abs binders body ih =>
      have hbody := (respects_abs.mp ht).2
      rw [under_append] at hbody
      simpa using ih _ hbody
  | app l r ihl ihr =>
      obtain ⟨hl, hr⟩ := respects_app.mp ht
      simp [ihl _ hl, ihr _ hr]
  | const c => simp
  | list elems ih => simpa using fun t hmem => ih t hmem _ (respects_list.mp ht t hmem)
  | instr head args ih => simpa using fun t hmem => ih t hmem _ ((respects_instr.mp ht).2 t hmem)
  | define form x a b iha ihb =>
      obtain ⟨ha, hb⟩ := respects_define.mp ht
      simp [iha _ ha, ihb _ hb]
  | recur defs b ihd ihb =>
      obtain ⟨-, hdefs, hb⟩ := respects_recur.mp ht
      simpa [ihb _ hb] using fun x t hmem => ihd (x, t) hmem _ (hdefs (x, t) hmem)

theorem Respects.rewrite_congr {d : Discipline} {outer : List String} {t : Term}
    (ht : t.Respects d outer)
    (h : ∀ inner v, d.occurrence (inner ++ outer) v → f inner.length v = g inner.length v) :
    t.rewrite f 0 = t.rewrite g 0 :=
  Respects.rewrite_congr_within [] ht h

/-- The rewriting turns what one discipline allows within the scope `outer` into what another allows
within `outer'`, under any further binders. -/
structure Carries (visit : Nat → Variable → Term) (d d' : Discipline) (outer outer' : List String) :
    Prop where
  occurrence : ∀ inner v, d.occurrence (inner ++ outer) v →
    (visit inner.length v).Respects d' (inner ++ outer')
  binders : ∀ inner vs, d.binders (inner ++ outer) vs → d'.binders (inner ++ outer') vs
  arguments : ∀ head n, d.arguments head n → d'.arguments head n
  definitions : ∀ n, d.definitions n → d'.definitions n

theorem Respects.rewrite_within {d d' : Discipline} {outer outer' : List String} {t : Term}
    (inner : List String) (ht : t.Respects d (inner ++ outer)) (h : Carries visit d d' outer outer') :
    (t.rewrite visit inner.length).Respects d' (inner ++ outer') := by
  induction t using induction_on generalizing inner with
  | var v => simpa using h.occurrence inner v (by simpa using ht)
  | abs binders body ih =>
      obtain ⟨hbinders, hbody⟩ := respects_abs.mp ht
      rw [under_append] at hbody
      have hbody' := ih _ hbody
      -- seen from the body, the new binders belong to the inner part of the scope
      rw [length_under, ← under_append] at hbody'
      rw [rewrite_abs, respects_abs]
      exact ⟨h.binders inner binders hbinders, hbody'⟩
  | app l r ihl ihr =>
      obtain ⟨hl, hr⟩ := respects_app.mp ht
      rw [rewrite_app, respects_app]
      exact ⟨ihl _ hl, ihr _ hr⟩
  | const c => simp
  | list elems ih => simpa using fun t hmem => ih t hmem _ (respects_list.mp ht t hmem)
  | instr head args ih =>
      obtain ⟨hargs, hall⟩ := respects_instr.mp ht
      rw [rewrite_instr, respects_instr, List.length_map]
      exact ⟨h.arguments head _ hargs, by simpa using fun t hmem => ih t hmem _ (hall t hmem)⟩
  | define form x a b iha ihb =>
      obtain ⟨ha, hb⟩ := respects_define.mp ht
      rw [rewrite_define, respects_define]
      exact ⟨iha _ ha, ihb _ hb⟩
  | recur defs b ihd ihb =>
      obtain ⟨hlength, hdefs, hb⟩ := respects_recur.mp ht
      rw [rewrite_recur, respects_recur, List.length_map]
      refine ⟨h.definitions _ hlength, fun q hq => ?_, ihb _ hb⟩
      obtain ⟨p, hp, rfl⟩ := List.mem_map.mp hq
      exact ihd p hp _ (hdefs p hp)

theorem Respects.rewrite {d d' : Discipline} {outer outer' : List String} {t : Term}
    (ht : t.Respects d outer) (h : Carries visit d d' outer outer') :
    (t.rewrite visit 0).Respects d' outer' :=
  Respects.rewrite_within [] ht h

/-- A discipline with weaker demands. -/
theorem Respects.imp {d d' : Discipline} {scope : List String} {t : Term} (ht : t.Respects d scope)
    (h : Carries (fun _ v => .var v) d d' scope scope) : t.Respects d' scope := by
  rw [← rewrite_id (j := 0) t]
  exact ht.rewrite h

end Term

/-! ## The walk with a state -/

/-- A way to say that a computation gives a value, which goes through sequences. -/
structure Verdict where
  Holds : {α : Type} → Except Fault α → α → Prop
  ok : ∀ {α : Type} (a : α), Holds (.ok a) a
  bind : ∀ {α β : Type} {x : Except Fault α} {f : α → Except Fault β} {a : α} {b : β},
    Holds x a → Holds (f a) b → Holds (x >>= f) b

/-- The computation gives nothing but the value. -/
def Verdict.atMost : Verdict where
  Holds x a := ∀ a', x = .ok a' → a' = a
  ok a a' h := by cases h; rfl
  bind hx hf b h := by
    obtain ⟨a', ha', hb⟩ := bind_eq_ok.mp h
    cases hx a' ha'
    exact hf b hb

/-- The computation gives the value. -/
def Verdict.exactly : Verdict where
  Holds x a := x = .ok a
  ok _ := rfl
  bind hx hf := by rw [hx]; exact hf

namespace Term

section Walk

variable {σ : Type} {enter : Nat → σ → Except Fault σ} {step : σ → Variable → Except Fault Term}
  (verdict : Verdict) (state : Nat → σ) (visit : Nat → Variable → Term) {d : Discipline}
  {outer : List String}
  (henter : ∀ inner vs, d.binders (inner ++ outer) vs →
    verdict.Holds (enter vs.length (state inner.length)) (state (inner.length + vs.length)))
  (hstep : ∀ inner v, d.occurrence (inner ++ outer) v →
    verdict.Holds (step (state inner.length) v) (visit inner.length v))

include henter hstep

/-- A walk whose state is known from the number of binders passed does what the rewriting does,
wherever it starts. -/
theorem traverse_agrees_within (inner : List String) {t : Term}
    (ht : t.Respects d (inner ++ outer)) :
    verdict.Holds (t.traverse enter step (state inner.length)) (t.rewrite visit inner.length) := by
  -- lists have walks of their own, which go by induction on the list
  have hlist (inner : List String) (ts : List Term) (h : ∀ t ∈ ts, verdict.Holds
      (t.traverse enter step (state inner.length)) (t.rewrite visit inner.length)) :
      verdict.Holds (traverseList enter step (state inner.length) ts)
        (ts.map (Term.rewrite visit inner.length)) := by
    induction ts with
    | nil => rw [traverseList]; exact verdict.ok _
    | cons t ts ih =>
        rw [traverseList]
        exact verdict.bind (h t (by simp)) (verdict.bind (ih fun u hu => h u (by simp [hu]))
          (verdict.ok _))
  have hdefs (inner : List String) (defs : List (String × Term)) (h : ∀ p ∈ defs, verdict.Holds
      (p.2.traverse enter step (state inner.length)) (p.2.rewrite visit inner.length)) :
      verdict.Holds (traverseDefs enter step (state inner.length) defs)
        (defs.map fun p => (p.1, p.2.rewrite visit inner.length)) := by
    induction defs with
    | nil => rw [traverseDefs]; exact verdict.ok _
    | cons p defs ih =>
        rw [traverseDefs]
        exact verdict.bind (h p (by simp)) (verdict.bind (ih fun q hq => h q (by simp [hq]))
          (verdict.ok _))
  induction t using induction_on generalizing inner with
  | var v =>
      rw [traverse, rewrite_var]
      exact hstep inner v (respects_var.mp ht)
  | abs binders body ih =>
      obtain ⟨hbinders, hbody⟩ := respects_abs.mp ht
      rw [under_append] at hbody
      have hwalk := ih _ hbody
      rw [length_under] at hwalk
      rw [traverse, rewrite_abs]
      exact verdict.bind (henter inner binders hbinders) (verdict.bind hwalk (verdict.ok _))
  | app l r ihl ihr =>
      obtain ⟨hl, hr⟩ := respects_app.mp ht
      rw [traverse, rewrite_app]
      exact verdict.bind (ihl _ hl) (verdict.bind (ihr _ hr) (verdict.ok _))
  | const c => rw [traverse, rewrite_const]; exact verdict.ok _
  | list elems ih =>
      rw [traverse, rewrite_list]
      exact verdict.bind (hlist inner elems fun t hmem => ih t hmem _ (respects_list.mp ht t hmem))
        (verdict.ok _)
  | instr head args ih =>
      rw [traverse, rewrite_instr]
      exact verdict.bind (hlist inner args fun t hmem =>
        ih t hmem _ ((respects_instr.mp ht).2 t hmem)) (verdict.ok _)
  | define form x a b iha ihb =>
      obtain ⟨ha, hb⟩ := respects_define.mp ht
      rw [traverse, rewrite_define]
      exact verdict.bind (iha _ ha) (verdict.bind (ihb _ hb) (verdict.ok _))
  | recur defs b ihd ihb =>
      obtain ⟨-, hall, hb⟩ := respects_recur.mp ht
      rw [traverse, rewrite_recur]
      exact verdict.bind (hdefs inner defs fun p hmem => ihd p hmem _ (hall p hmem))
        (verdict.bind (ihb _ hb) (verdict.ok _))

theorem traverse_agrees {t : Term} (ht : t.Respects d outer) :
    verdict.Holds (t.traverse enter step (state 0)) (t.rewrite visit 0) :=
  traverse_agrees_within verdict state visit henter hstep [] ht

end Walk

/-- What a walk that ends has come across: binders that it could enter and occurrences that it could
replace. -/
theorem Respects.of_traverse_eq_ok {σ : Type} {enter : Nat → σ → Except Fault σ}
    {step : σ → Variable → Except Fault Term} (state : Nat → σ) {d : Discipline}
    (henter : ∀ scope vs s, enter vs.length (state scope.length) = .ok s →
      d.binders scope vs ∧ s = state (scope.length + vs.length))
    (hstep : ∀ scope v u, step (state scope.length) v = .ok u → d.occurrence scope v)
    (harguments : ∀ head n, d.arguments head n) (hdefinitions : ∀ n, d.definitions n)
    {scope : List String} {t u : Term} (h : t.traverse enter step (state scope.length) = .ok u) :
    t.Respects d scope := by
  have hlist {s : σ} (ts : List Term) {us : List Term} (h : traverseList enter step s ts = .ok us) :
      ∀ t ∈ ts, ∃ u, t.traverse enter step s = .ok u := by
    induction ts generalizing us with
    | nil => simp
    | cons t ts ih =>
        rw [traverseList] at h
        obtain ⟨u, hu, h⟩ := bind_eq_ok.mp h
        obtain ⟨us', hus, -⟩ := bind_eq_ok.mp h
        exact List.forall_mem_cons.mpr ⟨⟨u, hu⟩, ih hus⟩
  have hdefs {s : σ} (defs : List (String × Term)) {results : List (String × Term)}
      (h : traverseDefs enter step s defs = .ok results) :
      ∀ p ∈ defs, ∃ u, p.2.traverse enter step s = .ok u := by
    induction defs generalizing results with
    | nil => simp
    | cons p defs ih =>
        rw [traverseDefs] at h
        obtain ⟨u, hu, h⟩ := bind_eq_ok.mp h
        obtain ⟨results', hresults, -⟩ := bind_eq_ok.mp h
        exact List.forall_mem_cons.mpr ⟨⟨u, hu⟩, ih hresults⟩
  induction t using induction_on generalizing scope u with
  | var v =>
      rw [traverse] at h
      exact respects_var.mpr (hstep scope v u h)
  | abs binders body ih =>
      rw [traverse] at h
      obtain ⟨s, hs, h⟩ := bind_eq_ok.mp h
      obtain ⟨body', hbody, -⟩ := bind_eq_ok.mp h
      obtain ⟨hbinders, rfl⟩ := henter scope binders s hs
      rw [← length_under] at hbody
      exact respects_abs.mpr ⟨hbinders, ih hbody⟩
  | app l r ihl ihr =>
      rw [traverse] at h
      obtain ⟨l', hl, h⟩ := bind_eq_ok.mp h
      obtain ⟨r', hr, -⟩ := bind_eq_ok.mp h
      exact respects_app.mpr ⟨ihl hl, ihr hr⟩
  | const c => exact respects_const
  | list elems ih =>
      rw [traverse] at h
      obtain ⟨elems', helems, -⟩ := bind_eq_ok.mp h
      refine respects_list.mpr fun t hmem => ?_
      obtain ⟨u, hu⟩ := hlist elems helems t hmem
      exact ih t hmem hu
  | instr head args ih =>
      rw [traverse] at h
      obtain ⟨args', hargs, -⟩ := bind_eq_ok.mp h
      refine respects_instr.mpr ⟨harguments head _, fun t hmem => ?_⟩
      obtain ⟨u, hu⟩ := hlist args hargs t hmem
      exact ih t hmem hu
  | define form x a b iha ihb =>
      rw [traverse] at h
      obtain ⟨a', ha, h⟩ := bind_eq_ok.mp h
      obtain ⟨b', hb, -⟩ := bind_eq_ok.mp h
      exact respects_define.mpr ⟨iha ha, ihb hb⟩
  | recur defs b ihd ihb =>
      rw [traverse] at h
      obtain ⟨defs', hall, h⟩ := bind_eq_ok.mp h
      obtain ⟨b', hb, -⟩ := bind_eq_ok.mp h
      refine respects_recur.mpr ⟨hdefinitions _, fun p hp => ?_, ihb hb⟩
      obtain ⟨u, hu⟩ := hdefs defs hall p hp
      exact ihd p hp hu

end Term

end IndexedLambda
