import IndexedLambda.Evaluation.Equality
import IndexedLambda.Proofs.Evaluation.Transport
import IndexedLambda.Proofs.Evaluation.WellFormed
/-!
# Filling the placeholder

Comparison applies abstractions to a placeholder, a free variable, and evaluates. A constant is as inert
as a free variable, so an evaluation goes the same way, step by step and with the same fuel, when a
constant stands in the place of the placeholder from the beginning (`fillStep`). That needs two things:
no binder has the placeholder's name, so that a substitution never hits the placeholder, and no
instruction occurs, since an instruction can tell a variable from a constant.

Filling is one of the rewritings that evaluation commutes with. The statements are about results:
`Mirrors f x y` says that whenever `x` gives a value, `y` gives its image. A walk over the filled term has
fewer occurrences to move, so it faults less often, never more.
-/

namespace IndexedLambda

/-- Whenever the first computation gives a value, the second gives the image of it. -/
def Mirrors {α β : Type} (f : α → β) (x : Except Fault α) (y : Except Fault β) : Prop :=
  ∀ a, x = .ok a → y = .ok (f a)

namespace Mirrors

variable {α α' β β' : Type}

theorem of_exactly {f : α → β} {x : Except Fault α} {y : Except Fault β}
    (h : Verdict.exactly.Mirrors f x y) : Mirrors f x y := h

theorem ok {f : α → β} {a : α} {b : β} (h : b = f a) : Mirrors f (.ok a) (.ok b) :=
  of_exactly (.ok h)

theorem bind {f : α → β} {g : α' → β'} {x : Except Fault α} {y : Except Fault β}
    {next : α → Except Fault α'} {next' : β → Except Fault β'} (hx : Mirrors f x y)
    (hnext : ∀ a, x = .ok a → Mirrors g (next a) (next' (f a))) :
    Mirrors g (x >>= next) (y >>= next') :=
  of_exactly (.bind hx hnext)

end Mirrors

/-- No binder has the name. -/
def Discipline.bindsNot (x : String) : Discipline where
  occurrence _ _ := True
  binders _ vs := ∀ v ∈ vs, v.name ≠ x
  arguments _ _ := True
  definitions _ := True

theorem Discipline.bindsNot_portable (x : String) : (Discipline.bindsNot x).Portable where
  insert h := h
  below h _ := h
  above h _ := h
  binders h := h
  rest h _ := fun v hv => h v (List.mem_cons_of_mem _ hv)

/-- Sound, without instructions, and without a binder that has the placeholder's name. -/
def Discipline.fillable : Discipline :=
  Discipline.sound.and (Discipline.instructionFree.and (.bindsNot Variable.placeholder.name))

namespace Term

variable {c : String}

/-- The rewriting behind `fill`. It goes by name, so it does not count binders. -/
def filling (c : String) (_ : Nat) (v : Variable) : Term :=
  if v.name = Variable.placeholder.name then .const c else .var v

/-- Puts a constant in the place of every occurrence of the placeholder. -/
def fill (c : String) (t : Term) : Term := t.rewrite (filling c) 0

theorem rewrite_filling (j : Nat) (t : Term) : t.rewrite (filling c) j = t.fill c :=
  rewrite_add (i := j) (j := 0) t

theorem fill_placeholder {v : Variable} (h : v.name = Variable.placeholder.name) :
    (Term.var v).fill c = .const c := by
  rw [fill, rewrite_var, filling, if_pos h]

theorem fill_var {v : Variable} (h : v.name ≠ Variable.placeholder.name) :
    (Term.var v).fill c = .var v := by
  rw [fill, rewrite_var, filling, if_neg h]

@[simp] theorem fill_abs (binders : List Variable) (body : Term) :
    (Term.abs binders body).fill c = .abs binders (body.fill c) := by
  rw [fill, rewrite_abs, rewrite_filling]

@[simp] theorem fill_app (l r : Term) : (Term.app l r).fill c = .app (l.fill c) (r.fill c) :=
  rewrite_app l r

@[simp] theorem fill_const (x : String) : (Term.const x).fill c = .const x := rewrite_const x

@[simp] theorem fill_list (elems : List Term) :
    (Term.list elems).fill c = .list (elems.map (fill c)) := rewrite_list elems

@[simp] theorem fill_instr (head : InstructionHead) (args : List Term) :
    (Term.instr head args).fill c = .instr head (args.map (fill c)) := rewrite_instr head args

@[simp] theorem fill_define (form : LetForm) (x : String) (a b : Term) :
    (Term.define form x a b).fill c = .define form x (a.fill c) (b.fill c) := rewrite_define form x a b

@[simp] theorem fill_recur (defs : List (String × Term)) (b : Term) :
    (Term.recur defs b).fill c = .recur (defs.map fun p => (p.1, p.2.fill c)) (b.fill c) :=
  rewrite_recur defs b

/-! ## Walks -/

section Walk

variable {S : Type} {enter : Nat → S → Except Fault S} {step : S → Variable → Except Fault Term}
  {P : S → Prop} (f : S → S)
  (henter : ∀ k s s', P s → enter k s = .ok s' → P s' ∧ enter k (f s) = .ok (f s'))
  (hstep : ∀ s v, P s → Mirrors (fill c) (step s v) (((Term.var v).fill c).traverse enter step (f s)))

include henter hstep

/-- A walk over the filled term gives the filled result, if what it does at one occurrence does. -/
theorem traverse_fill (t : Term) {s : S} (hs : P s) :
    Mirrors (fill c) (t.traverse enter step s) ((t.fill c).traverse enter step (f s)) := by
  have hlist (s : S) (ts : List Term) (h : ∀ t ∈ ts, Mirrors (fill c) (t.traverse enter step s)
      ((t.fill c).traverse enter step (f s))) : Mirrors (List.map (fill c))
      (traverseList enter step s ts) (traverseList enter step (f s) (ts.map (fill c))) := by
    induction ts with
    | nil => rw [List.map_nil, traverseList, traverseList]; exact .ok rfl
    | cons t ts ih =>
        rw [List.map_cons, traverseList, traverseList]
        exact .bind (h t (by simp)) fun _ _ => .bind (ih fun u hu => h u (by simp [hu])) fun _ _ =>
          .ok rfl
  have hdefs (s : S) (defs : List (String × Term)) (h : ∀ p ∈ defs, Mirrors (fill c)
      (p.2.traverse enter step s) ((p.2.fill c).traverse enter step (f s))) :
      Mirrors (List.map fun p => (p.1, p.2.fill c)) (traverseDefs enter step s defs)
        (traverseDefs enter step (f s) (defs.map fun p => (p.1, p.2.fill c))) := by
    induction defs with
    | nil => rw [List.map_nil, traverseDefs, traverseDefs]; exact .ok rfl
    | cons p defs ih =>
        rw [List.map_cons, traverseDefs, traverseDefs]
        exact .bind (h p (by simp)) fun _ _ => .bind (ih fun q hq => h q (by simp [hq])) fun _ _ =>
          .ok rfl
  induction t using induction_on generalizing s with
  | var v => rw [traverse]; exact hstep s v hs
  | abs binders body ih =>
      rw [fill_abs, traverse, traverse]
      refine .bind (f := f) (fun s' hs' => (henter _ _ _ hs hs').2) fun s' hs' => ?_
      exact .bind (ih (henter _ _ _ hs hs').1) fun _ _ => .ok (fill_abs _ _).symm
  | app l r ihl ihr =>
      rw [fill_app, traverse, traverse]
      exact .bind (ihl hs) fun _ _ => .bind (ihr hs) fun _ _ => .ok (fill_app _ _).symm
  | const x => rw [fill_const, traverse, traverse]; exact .ok (fill_const x).symm
  | list elems ih =>
      rw [fill_list, traverse, traverse]
      exact .bind (hlist s elems fun t ht => ih t ht hs) fun _ _ => .ok (fill_list _).symm
  | instr head args ih =>
      rw [fill_instr, traverse, traverse]
      exact .bind (hlist s args fun t ht => ih t ht hs) fun _ _ => .ok (fill_instr _ _).symm
  | define form x a b iha ihb =>
      rw [fill_define, traverse, traverse]
      exact .bind (iha hs) fun _ _ => .bind (ihb hs) fun _ _ => .ok (fill_define _ _ _ _).symm
  | recur defs b ihd ihb =>
      rw [fill_recur, traverse, traverse]
      exact .bind (hdefs s defs fun p hp => ihd p hp hs) fun _ _ => .bind (ihb hs) fun _ _ =>
        .ok (fill_recur _ _).symm

end Walk

theorem shift_fill (s : Shift) (t : Term) :
    Mirrors (fill c) (t.shift s) ((t.fill c).shift s) := by
  refine traverse_fill (P := fun _ => True) id (fun k s s' _ h => ⟨trivial, h⟩) (fun s v _ => ?_) t
    trivial
  intro u hu
  obtain ⟨w, hw, hu⟩ := bind_eq_ok.mp hu
  cases hu
  by_cases hv : v.name = Variable.placeholder.name
  · rw [fill_placeholder hv, fill_placeholder ((name_of_shift hw).trans hv), traverse]
  · rw [fill_var hv, fill_var (fun h => hv ((name_of_shift hw).symm.trans h)), traverse]
    exact bind_eq_ok.mpr ⟨w, hw, rfl⟩

theorem replace_fill {v : Variable} (hv : v.name ≠ Variable.placeholder.name) (t u : Term) :
    Mirrors (fill c) (t.replace v u) ((t.fill c).replace v (u.fill c)) := by
  refine traverse_fill (P := fun s : Variable × Term => s.1.name ≠ Variable.placeholder.name)
    (fun s => (s.1, s.2.fill c)) (fun k s s' hs h => ?_) (fun s w hs => ?_) t (s := (v, u)) hv
  · obtain ⟨x, hx, h⟩ := bind_eq_ok.mp h
    obtain ⟨r, hr, h⟩ := bind_eq_ok.mp h
    cases h
    exact ⟨fun hname => hs ((name_of_shift hx).symm.trans hname),
      bind_eq_ok.mpr ⟨x, hx, bind_eq_ok.mpr ⟨r.fill c, shift_fill _ _ r hr, rfl⟩⟩⟩
  · by_cases hw : w.name = Variable.placeholder.name
    · -- the occurrence is not the one that is replaced
      have hne : w ≠ s.1 := fun h => hs (h ▸ hw)
      rw [fill_placeholder hw, traverse]
      refine .ok ?_
      rw [if_neg hne, fill_placeholder hw]
    · rw [fill_var hw, traverse]
      refine .ok ?_
      split
      · rfl
      · rw [fill_var hw]

/-! ## The step -/

/-- An occurrence becomes a constant or stays. -/
theorem fill_var_cases (v : Variable) :
    (Term.var v).fill c = .const c ∨ (Term.var v).fill c = .var v := by
  by_cases hv : v.name = Variable.placeholder.name
  · exact .inl (fill_placeholder hv)
  · exact .inr (fill_var hv)

theorem isApplicable_fill (t : Term) : (t.fill c).isApplicable = t.isApplicable := by
  cases t with
  | var v => rcases fill_var_cases (c := c) v with h | h <;> simp [h, isApplicable]
  | abs | app | const | list | instr | define | recur => simp [isApplicable]

theorem exposes_fill (before after : Term) :
    exposes (before.fill c) (after.fill c) = exposes before after := by
  induction before using induction_on generalizing after with
  | var v => rcases fill_var_cases (c := c) v with h | h <;> rw [h] <;> simp [exposes]
  | abs binders body ih =>
      cases after with
      | var v => rcases fill_var_cases (c := c) v with h | h <;> rw [h] <;> simp [exposes]
      | abs => simpa [exposes] using ih _
      | app | const | list | instr | define | recur => simp [exposes]
  | app l r ihl _ =>
      cases after with
      | var v => rcases fill_var_cases (c := c) v with h | h <;> rw [h] <;> simp [exposes]
      | app => simp [exposes, ihl, isApplicable_fill]
      | abs | const | list | instr | define | recur => simp [exposes]
  | const | list | instr | define | recur => simp [exposes]

theorem contractBody_fill {v : Variable} (hv : v.name ≠ Variable.placeholder.name) (n : Nat)
    (body arg : Term) : Mirrors (fun p => (p.1.fill c, p.2)) (contractBody v n body arg)
      (contractBody v n (body.fill c) (arg.fill c)) := by
  refine .bind (shift_fill _ arg) fun raised _ => .bind (replace_fill hv body raised) fun inserted _ =>
    .bind (shift_fill _ inserted) fun result _ => .ok ?_
  rw [exposes_fill]

theorem assignFree_fill (t : Term) : (t.fill c).assignFree = t.assignFree.fill c := by
  induction t using induction_on with
  | var v =>
      have hname : (if v.isUnassigned then { v with depth := 1 } else v).name = v.name := by
        split <;> rfl
      by_cases hv : v.name = Variable.placeholder.name
      · rw [fill_placeholder hv, assignFree, assignFree, fill_placeholder (hname.trans hv)]
      · rw [fill_var hv, assignFree, fill_var fun h => hv (hname.symm.trans h)]
  | abs binders body _ => simp [assignFree]
  | app l r ihl ihr => simp [assignFree, ihl, ihr]
  | const x => simp [assignFree]
  | list elems ih => simpa [assignFree, assignFreeList_eq_map] using ih
  | instr head args ih => simpa [assignFree, assignFreeList_eq_map] using ih
  | define form x a b iha ihb => simp [assignFree, iha, ihb]
  | recur defs b ihd ihb =>
      simpa [assignFree, assignFreeDefs_eq_map, ihb] using fun x t ht => ihd (x, t) ht

/-! ## Evaluation -/

variable {natives : InstructionSet} {n : Nat}

theorem var_fillable (v : Variable) : (Term.var v).Respects .fillable [] :=
  ⟨⟨var_wellFormed v, trivial⟩, trivial, trivial⟩

theorem evaluable_fillable (natives : InstructionSet) :
    Evaluable natives .fillable (fun d scope => d = .fillable ∧ scope = []) := by
  refine evaluable_of_instructionFree natives (Discipline.sound_portable.and
    (Discipline.instructionFree_portable.and (Discipline.bindsNot_portable _)))
    (fun ht => (respects_and.mp ht).1) (fun h => h.2.1) ?_
  rintro scope arg rfl harg
  exact harg.assignFree_of_var var_fillable

/-- With the given fuel, the functions of reduction give the filled result on filled terms. -/
structure FillStep (natives : InstructionSet) (c : String) (n : Nat) : Prop where
  force : ∀ {t : Term}, t.Respects .fillable [] →
    Mirrors (fill c) (force natives n t) (force natives n (t.fill c))
  feed : ∀ {t arg : Term}, t.Respects .fillable [] → arg.Respects .fillable [] →
    Mirrors (fill c) (feed natives n t arg) (feed natives n (t.fill c) (arg.fill c))
  apply : ∀ {binders body} {arg : Term}, (abs binders body).Respects .fillable [] →
    arg.Respects .fillable [] → Mirrors (fill c) (apply natives n binders body arg)
      (apply natives n binders (body.fill c) (arg.fill c))
  settle : ∀ {scope} {t : Term} (flag : Bool), t.Respects .fillable scope →
    Mirrors (fill c) (settle natives n t flag) (settle natives n (t.fill c) flag)
  advance : ∀ {scope} {t : Term}, t.Respects .fillable scope →
    Mirrors (fun p => (p.1.fill c, p.2)) (advance natives n t) (advance natives n (t.fill c))

/-- Filling puts constants in the place of occurrences, and nothing that a step looks for. -/
theorem commutes_filling (natives : InstructionSet) (c : String) :
    Commutes natives .fillable (fun scope => scope = []) .exactly (filling c) where
  evaluable := evaluable_fillable natives
  free h := h.2.1
  atomic i v := by
    unfold filling
    split
    · exact .const c
    · exact .var v
  contract {scope v rest body arg} hf _ := by
    simp only [rewrite_filling]
    exact contractBody_fill ((respects_abs.mp hf).1.2.2 v List.mem_cons_self) rest.length body arg
  prepare {scope arg} _ _ := by
    simp only [rewrite_filling]
    exact assignFree_fill arg

theorem fillStep (natives : InstructionSet) (c : String) (n : Nat) : FillStep natives c n := by
  have h := (commutes_filling natives c).transports n
  have hfill (j : Nat) : rewrite (filling c) j = fill c := funext fun t => rewrite_filling j t
  refine ⟨fun ht => ?_, fun ht harg => ?_, fun hf harg => ?_, fun flag ht => ?_, fun ht => ?_⟩
  · simpa only [hfill] using Mirrors.of_exactly (h.force rfl ht)
  · simpa only [hfill] using Mirrors.of_exactly (h.feed rfl ht harg)
  · simpa only [hfill] using Mirrors.of_exactly (h.apply rfl hf harg)
  · simpa only [hfill] using Mirrors.of_exactly (h.settle flag ht)
  · simpa only [hfill] using Mirrors.of_exactly (h.advance ht)

end Term

end IndexedLambda
