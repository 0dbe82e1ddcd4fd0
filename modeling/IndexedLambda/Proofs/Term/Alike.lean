import Mathlib.Data.List.Forall2
import IndexedLambda.Proofs.Term.Discipline
import IndexedLambda.Term.Substitution
/-!
# Terms that differ in their instruction heads only

`Term.Alike R` relates two terms of one form whose instruction heads, place by place, are related by
`R`. Strict equality is the case in which related heads have the same name and arity and both an action
or neither (`Term.strictEq_iff_alike`); equality is the case of equal heads.

No operation on terms looks at a head, so each of them takes related terms to related terms and ends
in the same fault or in none (`Matching`). Shifting and substitution are instances of the one walk
behind them, `Alike.traverse`.
-/

namespace IndexedLambda

/-! ## Computations that end alike -/

/-- The computations end alike: with related values, or with the same fault. -/
inductive Matching {α β : Type} (R : α → β → Prop) : Except Fault α → Except Fault β → Prop
  | ok {a : α} {b : β} : R a b → Matching R (.ok a) (.ok b)
  | error (f : Fault) : Matching R (.error f) (.error f)

namespace Matching

variable {α β γ δ : Type} {R : α → β → Prop} {S : γ → δ → Prop}

theorem self (x : Except Fault α) : Matching Eq x x := by
  cases x with
  | ok a => exact .ok rfl
  | error f => exact .error f

theorem bind {x : Except Fault α} {y : Except Fault β} {f : α → Except Fault γ}
    {g : β → Except Fault δ} (hxy : Matching R x y)
    (hfg : ∀ a b, R a b → Matching S (f a) (g b)) : Matching S (x >>= f) (y >>= g) := by
  cases hxy with
  | ok hab => exact hfg _ _ hab
  | error e => exact .error e

theorem of_ok {x : Except Fault α} {y : Except Fault β} {a : α} {b : β} (hxy : Matching R x y)
    (hx : x = .ok a) (hy : y = .ok b) : R a b := by
  cases hxy with
  | ok hab =>
      cases hx
      cases hy
      exact hab
  | error f => cases hx

theorem mapM {f : α → Except Fault γ} {g : β → Except Fault δ} {as : List α} {bs : List β}
    (h : List.Forall₂ (fun a b => Matching S (f a) (g b)) as bs) :
    Matching (List.Forall₂ S) (as.mapM f) (bs.mapM g) := by
  induction h with
  | nil => exact .ok .nil
  | cons hab _ ih =>
      rw [List.mapM_cons, List.mapM_cons]
      exact hab.bind fun _ _ hc => ih.bind fun _ _ hcs => .ok (.cons hc hcs)

end Matching

/-! ## Related terms -/

namespace Term

/-- The terms have one form, and their instruction heads are related place by place. -/
inductive Alike (R : InstructionHead → InstructionHead → Prop) : Term → Term → Prop
  | var (v : Variable) : Alike R (.var v) (.var v)
  | abs (binders : List Variable) {b c : Term} : Alike R b c →
      Alike R (.abs binders b) (.abs binders c)
  | app {l r l' r' : Term} : Alike R l l' → Alike R r r' → Alike R (.app l r) (.app l' r')
  | const (x : String) : Alike R (.const x) (.const x)
  | list {ts us : List Term} : List.Forall₂ (Alike R) ts us → Alike R (.list ts) (.list us)
  | instr {h k : InstructionHead} {ts us : List Term} : R h k → List.Forall₂ (Alike R) ts us →
      Alike R (.instr h ts) (.instr k us)
  | define (form : LetForm) (x : String) {a b a' b' : Term} : Alike R a a' → Alike R b b' →
      Alike R (.define form x a b) (.define form x a' b')
  | recur {ds es : List (String × Term)} {b c : Term} :
      List.Forall₂ (fun d e => d.1 = e.1) ds es → List.Forall₂ (fun d e => Alike R d.2 e.2) ds es →
      Alike R b c → Alike R (.recur ds b) (.recur es c)

variable {R : InstructionHead → InstructionHead → Prop} {t u : Term}

theorem alike_self (hR : ∀ h, R h h) (t : Term) : Alike R t t := by
  induction t using induction_on with
  | var v => exact .var v
  | abs binders body ih => exact .abs binders ih
  | app l r ihl ihr => exact .app ihl ihr
  | const c => exact .const c
  | list elems ih => exact .list (List.forall₂_same.mpr ih)
  | instr head args ih => exact .instr (hR head) (List.forall₂_same.mpr ih)
  | define form x a b iha ihb => exact .define form x iha ihb
  | recur defs b ihd ihb =>
      exact .recur (List.forall₂_same.mpr fun _ _ => rfl) (List.forall₂_same.mpr ihd) ihb

/-- Functions that take related elements to related ones do so with lists. -/
theorem forall₂_map {α β γ δ : Type} {P : α → β → Prop} {Q : γ → δ → Prop} {f : α → γ} {g : β → δ}
    {as : List α} {bs : List β} (ih : ∀ a ∈ as, ∀ b, P a b → Q (f a) (g b))
    (h : List.Forall₂ P as bs) : List.Forall₂ Q (as.map f) (bs.map g) := by
  induction h with
  | nil => exact .nil
  | cons hab _ ihs =>
      exact .cons (ih _ List.mem_cons_self _ hab) (ihs fun a ha => ih a (List.mem_cons_of_mem _ ha))

/-- Elements that are made equal make lists equal. -/
theorem map_eq_map_of_forall₂ {α β γ : Type} {P : α → β → Prop} {f : α → γ} {g : β → γ}
    {as : List α} {bs : List β} (ih : ∀ a ∈ as, ∀ b, P a b → f a = g b)
    (h : List.Forall₂ P as bs) : as.map f = bs.map g :=
  List.forall₂_eq_eq_eq ▸ forall₂_map (Q := Eq) ih h

/-- Functions that agree on related heads make related terms equal. -/
theorem Alike.mapHeads_eq {f g : InstructionHead → InstructionHead}
    (hR : ∀ h k, R h k → f h = g k) (htu : Alike R t u) : t.mapHeads f = u.mapHeads g := by
  -- on the term: `Alike` is nested in lists, and its own induction says nothing of their elements
  induction t using induction_on generalizing u with
  | var v => cases htu; rfl
  | abs binders body ih =>
      cases htu with
      | abs _ hbody => rw [mapHeads, mapHeads, ih hbody]
  | app l r ihl ihr =>
      cases htu with
      | app hl hr => rw [mapHeads, mapHeads, ihl hl, ihr hr]
  | const c => cases htu; rfl
  | list elems ih =>
      cases htu with
      | list helems =>
          rw [mapHeads, mapHeads, mapHeadsList_eq_map, mapHeadsList_eq_map,
            map_eq_map_of_forall₂ (fun t ht u => ih t ht (u := u)) helems]
  | instr head args ih =>
      cases htu with
      | instr hhead hargs =>
          rw [mapHeads, mapHeads, mapHeadsList_eq_map, mapHeadsList_eq_map,
            map_eq_map_of_forall₂ (fun t ht u => ih t ht (u := u)) hargs, hR _ _ hhead]
  | define form x a b iha ihb =>
      cases htu with
      | define _ _ ha hb => rw [mapHeads, mapHeads, iha ha, ihb hb]
  | recur defs b ihd ihb =>
      cases htu with
      | recur hnames hdefs hb =>
          have hboth := hnames.mp (fun _ _ => And.intro) hdefs
          rw [mapHeads, mapHeads, mapHeadsDefs_eq_map, mapHeadsDefs_eq_map, ihb hb,
            map_eq_map_of_forall₂ (fun d hd e hde => ?_) hboth]
          exact Prod.ext hde.1 (ihd d hd hde.2)

/-- Elements of lists that are made equal are related in pairs. -/
theorem forall₂_of_map_eq_map {α β γ : Type} {P : α → β → Prop} {f : α → γ} {g : β → γ}
    {as : List α} {bs : List β} (ih : ∀ a ∈ as, ∀ b, f a = g b → P a b)
    (h : as.map f = bs.map g) : List.Forall₂ P as bs := by
  induction as generalizing bs with
  | nil =>
      obtain rfl := List.map_eq_nil_iff.mp h.symm
      exact .nil
  | cons a as ihs =>
      cases bs with
      | nil => cases h
      | cons b bs =>
          obtain ⟨hab, hrest⟩ := List.cons.inj h
          exact .cons (ih a List.mem_cons_self b hab)
            (ihs (fun a ha => ih a (List.mem_cons_of_mem _ ha)) hrest)

/-- Terms that a function of heads makes equal are alike. -/
theorem alike_of_mapHeads_eq {f : InstructionHead → InstructionHead}
    (h : t.mapHeads f = u.mapHeads f) : Alike (fun h k => f h = f k) t u := by
  -- a term keeps its form, so only one form of the other term is left in each case
  induction t using induction_on generalizing u with
  | var v =>
      cases u <;> simp only [mapHeads, reduceCtorEq, var.injEq] at h
      exact h ▸ .var v
  | abs binders body ih =>
      cases u <;> simp only [mapHeads, reduceCtorEq, abs.injEq] at h
      exact h.1 ▸ .abs binders (ih h.2)
  | app l r ihl ihr =>
      cases u <;> simp only [mapHeads, reduceCtorEq, app.injEq] at h
      exact .app (ihl h.1) (ihr h.2)
  | const c =>
      cases u <;> simp only [mapHeads, reduceCtorEq, const.injEq] at h
      exact h ▸ .const c
  | list elems ih =>
      cases u <;> simp only [mapHeads, mapHeadsList_eq_map, reduceCtorEq, list.injEq] at h
      exact .list (forall₂_of_map_eq_map (fun t ht u => ih t ht (u := u)) h)
  | instr head args ih =>
      cases u <;> simp only [mapHeads, mapHeadsList_eq_map, reduceCtorEq, instr.injEq] at h
      exact .instr h.1 (forall₂_of_map_eq_map (fun t ht u => ih t ht (u := u)) h.2)
  | define form x a b iha ihb =>
      cases u <;> simp only [mapHeads, reduceCtorEq, define.injEq] at h
      obtain ⟨rfl, rfl, ha, hb⟩ := h
      exact .define form x (iha ha) (ihb hb)
  | recur defs b ihd ihb =>
      cases u <;> simp only [mapHeads, mapHeadsDefs_eq_map, reduceCtorEq, recur.injEq] at h
      refine .recur (forall₂_of_map_eq_map (fun d _ e hde => (Prod.mk.inj hde).1) h.1)
        (forall₂_of_map_eq_map (fun d hd e hde => ihd d hd (Prod.mk.inj hde).2) h.1) (ihb h.2)

/-- Strict equality compares heads by what it sees of them. -/
theorem strictEq_iff_alike : t.StrictEq u ↔ Alike (fun h k => h.erased = k.erased) t u :=
  ⟨alike_of_mapHeads_eq, Alike.mapHeads_eq fun _ _ h => h⟩

/-- A function that fixes the heads a term may have leaves the term as it is. -/
theorem Respects.mapHeads_eq_self {d : Discipline} {f : InstructionHead → InstructionHead}
    (hd : ∀ head k, d.arguments head k → f head = head) {scope : List String}
    (ht : t.Respects d scope) : t.mapHeads f = t := by
  have hlist {ts : List Term} (ih : ∀ t ∈ ts, t.mapHeads f = t) : mapHeadsList f ts = ts := by
    rw [mapHeadsList_eq_map, List.map_congr_left ih, List.map_id'']
    exact fun _ => rfl
  induction t using induction_on generalizing scope with
  | var v => rfl
  | abs binders body ih => rw [mapHeads, ih (respects_abs.mp ht).2]
  | app l r ihl ihr => rw [mapHeads, ihl (respects_app.mp ht).1, ihr (respects_app.mp ht).2]
  | const c => rfl
  | list elems ih => rw [mapHeads, hlist fun t h => ih t h (respects_list.mp ht t h)]
  | instr head args ih =>
      rw [mapHeads, hlist fun t h => ih t h ((respects_instr.mp ht).2 t h),
        hd head _ (respects_instr.mp ht).1]
  | define form x a b iha ihb =>
      rw [mapHeads, iha (respects_define.mp ht).1, ihb (respects_define.mp ht).2]
  | recur defs b ihd ihb =>
      obtain ⟨-, hdefs, hb⟩ := respects_recur.mp ht
      have hmap : defs.map (fun p => (p.1, p.2.mapHeads f)) = defs.map id :=
        List.map_congr_left fun p hp => Prod.ext rfl (ihd p hp (hdefs p hp))
      rw [mapHeads, mapHeadsDefs_eq_map, hmap, List.map_id, ihb hb]

theorem alike_eq_iff : Alike Eq t u ↔ t = u := by
  have hid (t : Term) : t.mapHeads id = t := (respects_any [] t).mapHeads_eq_self fun _ _ _ => rfl
  constructor
  · intro h
    rw [← hid t, ← hid u]
    exact h.mapHeads_eq fun _ _ e => e
  · rintro rfl
    exact alike_self (fun _ => rfl) t

/-- Without instructions there is nothing that strict equality does not see. -/
theorem StrictEq.eq_of_free {d : Discipline} (hd : ∀ {head k}, ¬ d.arguments head k)
    {scope : List String} (ht : t.Respects d scope) (hu : u.Respects d scope) (h : t.StrictEq u) :
    t = u := by
  have hself {t : Term} (ht : t.Respects d scope) : t.erased = t :=
    ht.mapHeads_eq_self fun _ _ harguments => absurd harguments hd
  rw [← hself ht, ← hself hu]
  exact h

/-! ## Operations on related terms -/

namespace Alike

theorem isApplicable_eq (h : Alike R t u) : t.isApplicable = u.isApplicable := by
  cases h <;> rfl

theorem wrap (binders : List Variable) (h : Alike R t u) :
    Alike R (Term.wrap binders t) (Term.wrap binders u) := by
  unfold Term.wrap
  split
  · exact h
  · exact .abs binders h

theorem assignFree (h : Alike R t u) : Alike R t.assignFree u.assignFree := by
  induction t using induction_on generalizing u with
  | var v => cases h; exact .var _
  | abs binders body ih => cases h; exact .abs binders ‹_›
  | app l r ihl ihr =>
      cases h with
      | app hl hr => exact .app (ihl hl) (ihr hr)
  | const c => cases h; exact .const c
  | list elems ih =>
      cases h with
      | list helems =>
          rw [Term.assignFree, Term.assignFree, assignFreeList_eq_map, assignFreeList_eq_map]
          exact .list (forall₂_map (fun t ht u => ih t ht (u := u)) helems)
  | instr head args ih =>
      cases h with
      | instr hhead hargs =>
          rw [Term.assignFree, Term.assignFree, assignFreeList_eq_map, assignFreeList_eq_map]
          exact .instr hhead (forall₂_map (fun t ht u => ih t ht (u := u)) hargs)
  | define form x a b iha ihb =>
      cases h with
      | define _ _ ha hb => exact .define form x (iha ha) (ihb hb)
  | recur defs b ihd ihb =>
      cases h with
      | recur hnames hdefs hb =>
          rw [Term.assignFree, Term.assignFree, assignFreeDefs_eq_map, assignFreeDefs_eq_map]
          exact .recur (forall₂_map (fun _ _ _ hde => hde) hnames)
            (forall₂_map (fun d hd e hde => ihd d hd (u := e.2) hde) hdefs) (ihb hb)

section Traverse

variable {σ τ : Type} {S : σ → τ → Prop} {enter : Nat → σ → Except Fault σ}
  {enter' : Nat → τ → Except Fault τ} {visit : σ → Variable → Except Fault Term}
  {visit' : τ → Variable → Except Fault Term}

/-- Two walks that know related things take related terms to related terms. -/
theorem traverse (henter : ∀ n s s', S s s' → Matching S (enter n s) (enter' n s'))
    (hvisit : ∀ s s' v, S s s' → Matching (Alike R) (visit s v) (visit' s' v)) {s : σ} {s' : τ}
    (hs : S s s') (h : Alike R t u) :
    Matching (Alike R) (t.traverse enter visit s) (u.traverse enter' visit' s') := by
  have hlist {s : σ} {s' : τ} {ts us : List Term}
      (ih : ∀ t ∈ ts, ∀ u, Alike R t u →
        Matching (Alike R) (t.traverse enter visit s) (u.traverse enter' visit' s'))
      (h : List.Forall₂ (Alike R) ts us) : Matching (List.Forall₂ (Alike R))
        (traverseList enter visit s ts) (traverseList enter' visit' s' us) := by
    induction h with
    | nil => exact .ok .nil
    | cons hab _ ihs =>
        refine (ih _ List.mem_cons_self _ hab).bind fun _ _ ht => ?_
        exact (ihs fun t ht => ih t (List.mem_cons_of_mem _ ht)).bind fun _ _ hts => .ok (.cons ht hts)
  induction t using induction_on generalizing u s s' with
  | var v => cases h; exact hvisit s s' v hs
  | abs binders body ih =>
      cases h with
      | abs _ hbody =>
          refine (henter _ _ _ hs).bind fun i i' hi => ?_
          exact (ih hi hbody).bind fun _ _ hb => .ok (.abs binders hb)
  | app l r ihl ihr =>
      cases h with
      | app hl hr => exact (ihl hs hl).bind fun _ _ hl => (ihr hs hr).bind fun _ _ hr => .ok (.app hl hr)
  | const c => cases h; exact .ok (.const c)
  | list elems ih =>
      cases h with
      | list helems =>
          exact (hlist (fun t ht u => ih t ht (u := u) hs) helems).bind fun _ _ h => .ok (.list h)
  | instr head args ih =>
      cases h with
      | instr hhead hargs =>
          exact (hlist (fun t ht u => ih t ht (u := u) hs) hargs).bind fun _ _ h => .ok (.instr hhead h)
  | define form x a b iha ihb =>
      cases h with
      | define _ _ ha hb =>
          exact (iha hs ha).bind fun _ _ ha => (ihb hs hb).bind fun _ _ hb => .ok (.define form x ha hb)
  | recur defs b ihd ihb =>
      cases h with
      | @recur _ es _ _ hnames hdefs hb =>
          have hall : Matching (fun ds es => List.Forall₂ (fun d e => d.1 = e.1) ds es ∧
              List.Forall₂ (fun d e => Alike R d.2 e.2) ds es)
              (traverseDefs enter visit s defs) (traverseDefs enter' visit' s' es) := by
            -- names and definitions stand in two lists of pairs that are gone through together
            clear hb ihb
            induction hdefs with
            | nil => exact .ok ⟨.nil, .nil⟩
            | cons hde _ ihs =>
                cases hnames with
                | cons hname hnames =>
                    refine (ihd _ List.mem_cons_self hs hde).bind fun _ _ ht => ?_
                    refine (ihs (fun d hd => ihd d (List.mem_cons_of_mem _ hd)) hnames).bind
                      fun _ _ hrest => ?_
                    exact .ok ⟨.cons hname hrest.1, .cons ht hrest.2⟩
          exact hall.bind fun _ _ hds => (ihb hs hb).bind fun _ _ hb => .ok (.recur hds.1 hds.2 hb)

end Traverse

theorem shift (s : Shift) (h : Alike R t u) : Matching (Alike R) (t.shift s) (u.shift s) := by
  refine traverse (S := Eq) ?_ ?_ rfl h
  · rintro n s _ rfl
    exact .self _
  · rintro s _ v rfl
    refine (Matching.self _).bind fun w _ hw => ?_
    exact hw ▸ .ok (.var w)

theorem replace (v : Variable) {a b : Term} (hab : Alike R a b) (h : Alike R t u) :
    Matching (Alike R) (t.replace v a) (u.replace v b) := by
  refine traverse (S := fun p q => p.1 = q.1 ∧ Alike R p.2 q.2) ?_ ?_ ⟨rfl, hab⟩ h
  · rintro n ⟨v, a⟩ ⟨_, b⟩ ⟨rfl, hab⟩
    refine (Matching.self _).bind fun v' w' hv' => ?_
    exact (hab.shift _).bind fun _ _ ha' => .ok ⟨hv', ha'⟩
  · rintro ⟨v, a⟩ ⟨_, b⟩ w ⟨rfl, hab⟩
    dsimp only
    split
    · exact .ok hab
    · exact .ok (.var w)

theorem exposes_eq {t' u' : Term} (h : Alike R t u) (h' : Alike R t' u') :
    Term.exposes t t' = Term.exposes u u' := by
  induction t using induction_on generalizing u t' u' with
  | abs binders body ih =>
      cases h with
      | abs _ hbody =>
          cases h' with
          | abs _ hbody' => rw [Term.exposes, Term.exposes, ih hbody hbody']
          | _ => rfl
  | app l r ihl _ =>
      cases h with
      | app hl _ =>
          cases h' with
          | app hl' _ => rw [Term.exposes, Term.exposes, ihl hl hl', hl'.isApplicable_eq]
          | _ => rfl
  | _ => cases h; rfl

theorem contract (binders : List Variable) {a b : Term} (h : Alike R t u) (hab : Alike R a b) :
    Matching (fun p q => Alike R p.1 q.1 ∧ p.2 = q.2) (Term.contract binders t a)
      (Term.contract binders u b) := by
  cases binders with
  | nil => exact .error _
  | cons v rest =>
      refine (hab.shift _).bind fun _ _ hshifted => ?_
      refine (replace v hshifted h).bind fun _ _ hinserted => ?_
      exact (hinserted.shift _).bind fun _ _ hresult => .ok ⟨hresult.wrap rest, h.exposes_eq hinserted⟩

end Alike

end Term

end IndexedLambda
