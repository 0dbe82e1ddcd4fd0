import IndexedLambda.Proofs.Term.StrictForm
/-!
# The strict form can be read in one way only

Two legible terms with the same strict form are the same term, up to which of their instructions have
actions. More is true: if the forms of two terms are the same text as far as they go, each followed by
something that may follow a term (`Stops`), then the terms are the same and so is what follows
(`Legible.recovered`). In this form the statement goes by induction, since every part of a term is
followed by a mark or a blank.

A name ends where the first mark stands, so it can be cut off the front of a text (`lead`). The first few
characters tell the layout (`readLayout`), except that an application and a definition behind its body
begin alike: these are told apart by the word after the first part. Elements, arguments, binders and
definitions are sequences of items with something between them, and they are read item by item
(`intercalate_append_inj`).
-/

namespace IndexedLambda

/-! ## Words -/

/-- The text goes on with something that is not part of a name, or not at all. -/
def Breaks (r : List Char) : Prop := ∀ c ∈ r.head?, isNameChar c = false

/-- What may follow a term: nothing, or a blank or mark other than an opening bracket. -/
def Stops (r : List Char) : Prop := ∀ c ∈ r.head?, c ∈ [' ', ')', ']', ',']

theorem Stops.breaks {r : List Char} (h : Stops r) : Breaks r := by
  intro c hc
  have hmark : ∀ c ∈ [' ', ')', ']', ','], isNameChar c = false := by simp [isNameChar]
  exact hmark c (h c hc)

theorem stops_append {k : List Char} (hk : k.head?.any (· ∈ [' ', ')', ']', ',']) = true)
    (r : List Char) : Stops (k ++ r) := by
  cases k with
  | nil => simp at hk
  | cons c k =>
      intro c' hc'
      obtain rfl : c = c' := by simpa using hc'
      simpa using hk

theorem stops_cons {c : Char} (hc : c ∈ [' ', ')', ']', ',']) (r : List Char) : Stops (c :: r) :=
  stops_append (k := [c]) (by simpa using hc) r

theorem breaks_cons {c : Char} (hc : isNameChar c = false) (r : List Char) : Breaks (c :: r) := by
  intro c' hc'
  obtain rfl : c = c' := by simpa using hc'
  exact hc

/-- The word at the front of a text. -/
def lead (s : List Char) : List Char := s.takeWhile isNameChar

theorem lead_of_breaks {r : List Char} (hr : Breaks r) : lead r = [] := by
  cases r with
  | nil => rfl
  | cons c r => exact List.takeWhile_cons_of_neg (by simp [hr c rfl])

theorem lead_append {w r : List Char} (hw : ∀ c ∈ w, isNameChar c = true) (hr : Breaks r) :
    lead (w ++ r) = w := by
  have hstop := lead_of_breaks hr
  unfold lead at hstop ⊢
  rw [List.takeWhile_append_of_pos hw, hstop, List.append_nil]

/-- Two texts that begin with the same word go on in the same way. -/
theorem word_append_inj {w w' r s : List Char} (hw : ∀ c ∈ w, isNameChar c = true)
    (hw' : ∀ c ∈ w', isNameChar c = true) (hr : Breaks r) (hs : Breaks s) (h : w ++ r = w' ++ s) :
    w = w' ∧ r = s := by
  have hword : w = w' := by rw [← lead_append hw hr, h, lead_append hw' hs]
  subst hword
  exact ⟨rfl, List.append_cancel_left h⟩

theorem PlainName.append_inj {x y : String} {r s : List Char} (hx : PlainName x) (hy : PlainName y)
    (hr : Breaks r) (hs : Breaks s) (h : x.toList ++ r = y.toList ++ s) : x = y ∧ r = s := by
  obtain ⟨hname, hrest⟩ := word_append_inj hx.chars hy.chars hr hs h
  exact ⟨String.toList_inj.mp hname, hrest⟩

theorem PlainName.toList_eq_cons {x : String} (hx : PlainName x) :
    ∃ c w, x.toList = c :: w ∧ isNameChar c = true := by
  cases hlist : x.toList with
  | nil => exact absurd (String.toList_inj.mp (hlist.trans rfl)) hx.ne_empty
  | cons c w => exact ⟨c, w, rfl, hx.chars c (by simp [hlist])⟩

theorem isNameChar_of_isDigit {c : Char} (h : c.isDigit = true) : isNameChar c = true := by
  simp [isNameChar, Char.isAlphanum, h]

/-- The number of a depth can be cut off like a name. -/
theorem repr_append_inj {m n : Nat} {r s : List Char} (hr : Breaks r) (hs : Breaks s)
    (h : m.repr.toList ++ r = n.repr.toList ++ s) : m = n ∧ r = s := by
  have hdigits (k : Nat) : ∀ c ∈ k.repr.toList, isNameChar c = true :=
    fun c hc => isNameChar_of_isDigit (isDigit_of_mem_repr hc)
  obtain ⟨hnum, hrest⟩ := word_append_inj (hdigits m) (hdigits n) hr hs h
  exact ⟨Nat.repr_injective (String.toList_inj.mp hnum), hrest⟩

/-! ## Items -/

/-- Whatever follows, the text of `a` begins no other item, up to what `f` makes of an item. -/
def ReadsBack {α γ : Type} (P : α → Prop) (item : α → List Char) (f : α → γ) (a : α) : Prop :=
  ∀ b, P b → ∀ r s, Stops r → Stops s → item a ++ r = item b ++ s → f a = f b ∧ r = s

section Items

variable {α γ : Type} {P : α → Prop} {item : α → List Char} {f : α → γ} (sep stop : List Char)
  (hsep : ∀ r, Stops (sep ++ r)) (hstop : ∀ r, Stops (stop ++ r))

include hsep hstop in
/-- After an item there is another separator or the stop. -/
theorem stops_flatMap (as : List α) (r : List Char) :
    Stops (as.flatMap (fun a => sep ++ item a) ++ (stop ++ r)) := by
  cases as with
  | nil => simpa using hstop r
  | cons a as =>
      rw [List.flatMap_cons, List.append_assoc, List.append_assoc]
      exact hsep _

variable (hdiff : ∀ a, P a → ∀ r s, sep ++ (item a ++ r) ≠ stop ++ s)

include hsep hstop hdiff

/-- Items that each come after a separator, up to a stop. -/
theorem flatMap_append_inj {as bs : List α} (has : ∀ a ∈ as, P a ∧ ReadsBack P item f a)
    (hbs : ∀ b ∈ bs, P b) {r s : List Char}
    (h : as.flatMap (fun a => sep ++ item a) ++ (stop ++ r) =
      bs.flatMap (fun b => sep ++ item b) ++ (stop ++ s)) :
    as.map f = bs.map f ∧ r = s := by
  induction as generalizing bs with
  | nil =>
      cases bs with
      | nil => exact ⟨rfl, by simpa using h⟩
      | cons b bs =>
          simp only [List.flatMap_nil, List.nil_append, List.flatMap_cons, List.append_assoc] at h
          exact absurd h.symm (hdiff b (hbs b (by simp)) _ _)
  | cons a as ih =>
      cases bs with
      | nil =>
          simp only [List.flatMap_nil, List.nil_append, List.flatMap_cons, List.append_assoc] at h
          exact absurd h (hdiff a (has a (by simp)).1 _ _)
      | cons b bs =>
          simp only [List.flatMap_cons, List.append_assoc, List.append_cancel_left_eq] at h
          have hstops := @stops_flatMap α item sep stop hsep hstop
          obtain ⟨hab, hrest⟩ := (has a (by simp)).2 b (hbs b (by simp)) _ _ (hstops as r) (hstops bs s) h
          obtain ⟨hmap, hrs⟩ := ih (fun a ha => has a (by simp [ha]))
            (fun b hb => hbs b (by simp [hb])) hrest
          exact ⟨by simp [hab, hmap], hrs⟩

/-- Items with a separator between them, up to a stop. -/
theorem intercalate_append_inj (hstart : ∀ a, P a → ∀ r s, item a ++ r ≠ stop ++ s) {as bs : List α}
    (has : ∀ a ∈ as, P a ∧ ReadsBack P item f a) (hbs : ∀ b ∈ bs, P b) {r s : List Char}
    (h : sep.intercalate (as.map item) ++ (stop ++ r) = sep.intercalate (bs.map item) ++ (stop ++ s)) :
    as.map f = bs.map f ∧ r = s := by
  have hcons (a : α) (as : List α) (r : List Char) :
      sep.intercalate ((a :: as).map item) ++ (stop ++ r) =
        item a ++ (as.flatMap (fun a => sep ++ item a) ++ (stop ++ r)) := by
    rw [List.map_cons, intercalate_cons_eq_flatMap, List.flatMap_map, List.append_assoc]
  cases as with
  | nil =>
      cases bs with
      | nil => exact ⟨rfl, by simpa using h⟩
      | cons b bs =>
          rw [hcons] at h
          exact absurd h.symm (by simpa using hstart b (hbs b (by simp)) _ _)
  | cons a as =>
      cases bs with
      | nil =>
          rw [hcons] at h
          exact absurd h (by simpa using hstart a (has a (by simp)).1 _ _)
      | cons b bs =>
          -- with a separator in front all items are alike
          rw [hcons, hcons] at h
          refine flatMap_append_inj sep stop hsep hstop hdiff has hbs ?_
          simpa using h

end Items

/-! ## Layouts -/

/-- The layouts that a text shows with its first characters. -/
inductive Layout where
  | var | const | list | instr | abs | letIn | recur
  /-- An application, or a definition behind its body. -/
  | infixed
  deriving DecidableEq

/-- The layout of a text. -/
def readLayout (s : List Char) : Layout :=
  if s.head? = some '[' then .list
  else if s.head? = some '(' then
    if s.tail.head? = some 'λ' then .abs
    else if lead s.tail = "let".toList then .letIn
    else if lead s.tail = "rec".toList then .recur
    else .infixed
  else if lead s = "instruction".toList then .instr
  else if (s.drop (lead s).length).head? = some '[' then .var
  else .const

namespace Term

def layout : Term → Layout
  | .var _ => .var
  | .abs _ _ => .abs
  | .app _ _ => .infixed
  | .const _ => .const
  | .list _ => .list
  | .instr _ _ => .instr
  | .define .letIn _ _ _ => .letIn
  | .define .whereIn _ _ _ => .infixed
  | .recur _ _ => .recur

/-- The word that the form begins with, if it begins with one. -/
def leadWord : Term → String
  | .var v => v.name
  | .const c => c
  | .instr _ _ => "instruction"
  | _ => ""

variable {t : Term} {r : List Char}

theorem lead_written (ht : t.Legible) (hr : Stops r) : lead (t.written ++ r) = t.leadWord.toList := by
  cases t with
  | var v =>
      rw [written_var, List.append_assoc]
      exact lead_append ht.var.chars (breaks_cons rfl _)
  | const c => exact lead_append ht.const.chars hr.breaks
  | instr head args =>
      rw [written_instr, List.append_assoc]
      exact lead_append (w := "instruction".toList) (by simp [isNameChar]) (breaks_cons rfl _)
  | abs binders body => rw [written_abs]; rfl
  | app l r => rw [written_app]; rfl
  | list elems => rw [written_list]; rfl
  | define form x a b =>
      cases form with
      | letIn => rw [written_let]; rfl
      | whereIn => rw [written_where]; rfl
  | recur defs b => rw [written_recur]; rfl

/-- A term does not begin with one of the words that tell layouts apart. -/
theorem leadWord_ne (ht : t.Legible) {k : String} (hk : k ∈ ["let", "rec", "where"]) :
    t.leadWord ≠ k := by
  have hkeyword : ∀ k ∈ ["let", "rec", "where"], k ∈ keywords ∧ "" ≠ k ∧ "instruction" ≠ k := by decide
  obtain ⟨hmem, hempty, hinstr⟩ := hkeyword k hk
  have hplain {x : String} (hx : PlainName x) : x ≠ k := fun h => hx.not_keyword (h ▸ hmem)
  cases t with
  | var v => exact hplain ht.var
  | const c => exact hplain ht.const
  | instr head args => exact hinstr
  | _ => exact hempty

/-- A term begins with a name, a parenthesis or a bracket. -/
def opens (c : Char) : Bool := isNameChar c || c == '(' || c == '['

theorem written_eq_cons (ht : t.Legible) : ∃ c w, t.written = c :: w ∧ opens c = true := by
  cases t with
  | var v =>
      obtain ⟨c, w, hname, hc⟩ := ht.var.toList_eq_cons
      exact ⟨c, _, by rw [written_var, hname]; rfl, by simp [opens, hc]⟩
  | const x =>
      obtain ⟨c, w, hname, hc⟩ := ht.const.toList_eq_cons
      exact ⟨c, w, hname, by simp [opens, hc]⟩
  | instr head args => exact ⟨'i', _, by rw [written_instr]; rfl, rfl⟩
  | abs binders body => exact ⟨_, _, written_abs binders body, rfl⟩
  | app l r => exact ⟨_, _, written_app l r, rfl⟩
  | list elems => exact ⟨_, _, written_list elems, rfl⟩
  | define form x a b =>
      cases form with
      | letIn => exact ⟨'(', _, by rw [written_let]; rfl, rfl⟩
      | whereIn => exact ⟨_, _, written_where x a b, rfl⟩
  | recur defs b => exact ⟨'(', _, by rw [written_recur]; rfl, rfl⟩

theorem readLayout_infixed (ht : t.Legible) (hr : Stops r) :
    readLayout ('(' :: (t.written ++ r)) = .infixed := by
  obtain ⟨c, w, hw, hc⟩ := written_eq_cons ht
  have hlambda : (t.written ++ r).head? ≠ some 'λ' := by
    rw [hw]
    rintro h
    obtain rfl : c = 'λ' := by simpa using h
    revert hc
    decide
  have hword {k : String} (hk : k ∈ ["let", "rec", "where"]) : lead (t.written ++ r) ≠ k.toList := by
    rw [lead_written ht hr]
    exact fun h => leadWord_ne ht hk (String.toList_inj.mp h)
  rw [readLayout, if_neg (by simp), if_pos (by simp), List.tail_cons, if_neg hlambda,
    if_neg (hword (by simp)), if_neg (hword (by simp))]

/-- The layout of a term can be read off its text. -/
theorem readLayout_written (ht : t.Legible) (hr : Stops r) :
    readLayout (t.written ++ r) = t.layout := by
  -- a text that begins with a name is told by the name and by what comes after it
  have hname {x : String} (hx : PlainName x) {r : List Char} (hr : Breaks r) :
      readLayout (x.toList ++ r) = if r.head? = some '[' then .var else .const := by
    obtain ⟨c, w, hcons, hc⟩ := hx.toList_eq_cons
    have hlead := lead_append hx.chars hr
    have hinstr : x.toList ≠ "instruction".toList := by
      intro h
      exact hx.not_keyword (by rw [String.toList_inj.mp h]; decide)
    have hmarks : (x.toList ++ r).head? ≠ some '[' ∧ (x.toList ++ r).head? ≠ some '(' := by
      rw [hcons]
      constructor
      all_goals
        rintro h
        obtain rfl := by simpa using h
        revert hc
        decide
    rw [readLayout, if_neg hmarks.1, if_neg hmarks.2, hlead, if_neg hinstr, List.drop_left]
  cases t with
  | var v =>
      rw [written_var, List.append_assoc, List.cons_append, hname ht.var (breaks_cons (by decide) _)]
      rfl
  | const c =>
      rw [written_const, hname ht.const hr.breaks, if_neg]
      · rfl
      · intro h
        have := hr '[' h
        revert this
        decide
  | instr head args =>
      rw [written_instr]
      rfl
  | abs binders body => rw [written_abs]; rfl
  | app l r =>
      rw [written_app, List.cons_append, List.append_assoc]
      exact readLayout_infixed ht.app.1 (stops_cons (by simp) _)
  | list elems => rw [written_list]; rfl
  | define form x a b =>
      cases form with
      | letIn => rw [written_let]; rfl
      | whereIn =>
          rw [written_where, List.cons_append, List.append_assoc, List.append_assoc]
          exact readLayout_infixed ht.define.2.2 (stops_append (by decide) _)
  | recur defs b => rw [written_recur]; rfl

/-! ## Reading terms back -/

theorem Legible.append_ne (ht : t.Legible) {c : Char} (hc : opens c = false) (r s : List Char) :
    t.written ++ r ≠ c :: s := by
  obtain ⟨c', w, hw, hc'⟩ := written_eq_cons ht
  rw [hw]
  intro h
  obtain rfl : c' = c := (List.cons.inj h).1
  simp [hc] at hc'

/-- The word behind the first part tells a definition from an application. -/
theorem Legible.append_ne_where (ht : t.Legible) (hr : Stops r) (s : List Char) :
    ' ' :: (t.written ++ r) ≠ " where ".toList ++ s := by
  intro h
  have hword : t.written ++ r = "where".toList ++ ' ' :: s := by simpa using h
  have hlead := lead_written ht hr
  rw [hword, lead_append (by simp [isNameChar]) (breaks_cons (by decide) _)] at hlead
  exact leadWord_ne ht (by simp) (String.toList_inj.mp hlead).symm

theorem var_readsBack {v : Variable} (hv : PlainName v.name) :
    ReadsBack (fun w => PlainName w.name) (fun w => (Term.var w).written) id v := by
  intro w hw r s _ _ h
  simp only [written_var, List.append_assoc, List.cons_append] at h
  obtain ⟨hname, hafter⟩ := hv.append_inj hw (breaks_cons (by decide) _) (breaks_cons (by decide) _) h
  obtain ⟨hdepth, hend⟩ := repr_append_inj (breaks_cons (by decide) _) (breaks_cons (by decide) _)
    (List.cons.inj hafter).2
  refine ⟨?_, (List.cons.inj hend).2⟩
  show Variable.mk v.name v.depth = w
  rw [hname, hdepth]

theorem def_readsBack {p : String × Term} (hp : PlainName p.1)
    (ih : ReadsBack Legible written forgetActions p.2) :
    ReadsBack (fun q : String × Term => PlainName q.1 ∧ q.2.Legible) writtenDef
      (fun q => (q.1, q.2.forgetActions)) p := by
  intro q hq r s hr hs h
  simp only [writtenDef, List.append_assoc] at h
  obtain ⟨hname, hrest⟩ := hp.append_inj hq.1 (stops_append (by decide) _).breaks
    (stops_append (by decide) _).breaks h
  obtain ⟨hterm, hrest⟩ := ih q.2 hq.2 r s hr hs (List.append_cancel_left hrest)
  exact ⟨by simp [hname, hterm], hrest⟩

theorem place_readsBack {place : Option Term}
    (ih : ∀ t ∈ place, t.Legible ∧ ReadsBack Legible written forgetActions t) :
    ReadsBack (fun place : Option Term => ∀ t ∈ place, t.Legible) writtenPlace
      (Option.map forgetActions) place := by
  intro place' hplace' r s hr hs h
  cases place with
  | none =>
      cases place' with
      | none => exact ⟨rfl, (List.cons.inj h).2⟩
      | some u => exact absurd h.symm ((hplace' u rfl).append_ne (by decide) _ _)
  | some t =>
      obtain ⟨ht, ih⟩ := ih t rfl
      cases place' with
      | none => exact absurd h (ht.append_ne (by decide) _ _)
      | some u =>
          obtain ⟨htu, hrs⟩ := ih u (hplace' u rfl) r s hr hs h
          exact ⟨by simp [htu], hrs⟩

theorem mem_of_places {head : InstructionHead} {args : List Term} {place : Option Term}
    (hplace : place ∈ places head args) (ht : t ∈ place) : t ∈ args := by
  obtain rfl : place = some t := ht
  simpa [places] using hplace

/-- The places of an instruction show its arguments and how many it takes. -/
theorem places_inj {head head' : InstructionHead} {args args' : List Term}
    (hargs : args.length ≤ head.arity) (hargs' : args'.length ≤ head'.arity)
    (h : (places head args).map (Option.map forgetActions) =
      (places head' args').map (Option.map forgetActions)) :
    args.map forgetActions = args'.map forgetActions ∧ head.arity = head'.arity := by
  have hsome (head : InstructionHead) (args : List Term) :
      ((places head args).map (Option.map forgetActions)).filterMap id = args.map forgetActions := by
    rw [places, List.map_append, List.filterMap_append, List.map_replicate]
    induction args with
    | nil => simp
    | cons t args ih => simpa using ih
  have hlength {head : InstructionHead} {args : List Term} (hargs : args.length ≤ head.arity) :
      ((places head args).map (Option.map forgetActions)).length = head.arity := by
    rw [List.length_map, places, List.length_append, List.length_map, List.length_replicate]
    omega
  exact ⟨by rw [← hsome head, h, hsome], by rw [← hlength hargs, h, hlength hargs']⟩

theorem layout_eq {u : Term} {s : List Char} (ht : t.Legible) (hu : u.Legible) (hr : Stops r)
    (hs : Stops s) (h : t.written ++ r = u.written ++ s) : t.layout = u.layout := by
  rw [← readLayout_written ht hr, h, readLayout_written hu hs]

/-- The term is read back from its strict form, up to the actions of its instructions. -/
def Recovered (t : Term) : Prop := ReadsBack Legible written forgetActions t

theorem recovered_var {v : Variable} (ht : (Term.var v).Legible) : (Term.var v).Recovered := by
  intro u hu r s hr hs h
  have hlayout := layout_eq ht hu hr hs h
  cases u with
  | var w =>
      obtain ⟨rfl, hrs⟩ := var_readsBack ht.var w hu.var r s hr hs h
      exact ⟨rfl, hrs⟩
  | define form => cases form <;> simp [layout] at hlayout
  | _ => simp [layout] at hlayout

theorem recovered_const {c : String} (ht : (Term.const c).Legible) : (Term.const c).Recovered := by
  intro u hu r s hr hs h
  have hlayout := layout_eq ht hu hr hs h
  cases u with
  | const c' =>
      obtain ⟨rfl, hrs⟩ := ht.const.append_inj hu.const hr.breaks hs.breaks h
      exact ⟨rfl, hrs⟩
  | define form => cases form <;> simp [layout] at hlayout
  | _ => simp [layout] at hlayout

theorem recovered_abs {binders : List Variable} {body : Term} (ht : (Term.abs binders body).Legible)
    (ih : body.Recovered) : (Term.abs binders body).Recovered := by
  intro u hu r s hr hs h
  have hlayout := layout_eq ht hu hr hs h
  cases u with
  | abs binders' body' =>
      simp only [written_abs, List.cons_append, List.append_assoc, List.cons.injEq, true_and] at h
      have hfirst {v : Variable} (hv : PlainName v.name) {c : Char} (hc : opens c = false)
          (r s : List Char) : (Term.var v).written ++ r ≠ c :: s :=
        (Legible.of_name hv).append_ne hc r s
      obtain ⟨hbinders, hrest⟩ := intercalate_append_inj [' '] [' ', '.', ' '] (f := id)
        (P := fun v : Variable => PlainName v.name)
        (fun _ => stops_append (by decide) _) (fun _ => stops_append (by decide) _)
        (fun v hv r s h => hfirst hv (by decide) r _ (List.cons.inj h).2)
        (fun v hv r s => hfirst hv (by decide) r _)
        (fun v hv => ⟨ht.abs.1 v hv, var_readsBack (ht.abs.1 v hv)⟩) hu.abs.1 h
      obtain ⟨hbody, hend⟩ := ih body' hu.abs.2 _ _ (stops_cons (by simp) _)
        (stops_cons (by simp) _) hrest
      simp only [List.map_id] at hbinders
      exact ⟨by simp [hbinders, hbody], (List.cons.inj hend).2⟩
  | define form => cases form <;> simp [layout] at hlayout
  | _ => simp [layout] at hlayout

theorem recovered_list {elems : List Term} (ht : (Term.list elems).Legible)
    (ih : ∀ t ∈ elems, t.Recovered) : (Term.list elems).Recovered := by
  intro u hu r s hr hs h
  have hlayout := layout_eq ht hu hr hs h
  cases u with
  | list elems' =>
      simp only [written_list, List.cons_append, List.append_assoc, List.cons.injEq, true_and] at h
      obtain ⟨helems, hrs⟩ := intercalate_append_inj [',', ' '] [']'] (P := Legible)
        (fun _ => stops_append (by decide) _) (fun _ => stops_append (by decide) _)
        (fun t _ r s => by simp)
        (fun t ht r s => ht.append_ne (by decide) r _)
        (fun t hmem => ⟨ht.list t hmem, ih t hmem⟩) hu.list h
      exact ⟨by simp [helems], hrs⟩
  | define form => cases form <;> simp [layout] at hlayout
  | _ => simp [layout] at hlayout

theorem recovered_instr {head : InstructionHead} {args : List Term} (ht : (Term.instr head args).Legible)
    (ih : ∀ t ∈ args, t.Recovered) : (Term.instr head args).Recovered := by
  intro u hu r s hr hs h
  have hlayout := layout_eq ht hu hr hs h
  cases u with
  | instr head' args' =>
      obtain ⟨hname, hargs, hlegible⟩ := ht.instr
      obtain ⟨hname', hargs', hlegible'⟩ := hu.instr
      simp only [written_instr, List.append_assoc, List.append_cancel_left_eq] at h
      have hsep (r : List Char) : Stops ([' '] ++ r) := stops_append (by decide) r
      have hstop (r : List Char) : Stops ([']'] ++ r) := stops_append (by decide) r
      obtain ⟨hnames, hrest⟩ := hname.append_inj hname' (stops_flatMap [' '] [']'] hsep hstop _ _).breaks
        (stops_flatMap [' '] [']'] hsep hstop _ _).breaks h
      obtain ⟨hplaces, hrs⟩ := flatMap_append_inj [' '] [']'] (f := Option.map forgetActions)
        (P := fun place => ∀ t ∈ place, t.Legible) hsep hstop (by simp)
        (fun place hmem => ⟨fun t hp => hlegible t (mem_of_places hmem hp),
          place_readsBack fun t hp => ⟨hlegible t (mem_of_places hmem hp), ih t (mem_of_places hmem hp)⟩⟩)
        (fun place hmem t hp => hlegible' t (mem_of_places hmem hp)) hrest
      obtain ⟨hmap, harity⟩ := places_inj hargs hargs' hplaces
      exact ⟨by simp [hnames, hmap, harity], hrs⟩
  | define form => cases form <;> simp [layout] at hlayout
  | _ => simp [layout] at hlayout

theorem recovered_let {x : String} {a b : Term} (ht : (Term.define .letIn x a b).Legible)
    (iha : a.Recovered) (ihb : b.Recovered) : (Term.define .letIn x a b).Recovered := by
  intro u hu r s hr hs h
  have hlayout := layout_eq ht hu hr hs h
  cases u with
  | define form y c d =>
      cases form with
      | whereIn => simp [layout] at hlayout
      | letIn =>
          obtain ⟨hx, -⟩ := ht.define
          obtain ⟨hy, hc, hd⟩ := hu.define
          simp only [written_let, List.append_assoc, List.append_cancel_left_eq] at h
          obtain ⟨hname, h⟩ := hx.append_inj hy (stops_append (by decide) _).breaks
            (stops_append (by decide) _).breaks h
          obtain ⟨hassign, h⟩ := iha c hc _ _ (stops_append (by decide) _) (stops_append (by decide) _)
            (List.append_cancel_left h)
          obtain ⟨hbody, h⟩ := ihb d hd _ _ (stops_append (by decide) _) (stops_append (by decide) _)
            (List.append_cancel_left h)
          exact ⟨by simp [hname, hassign, hbody], List.append_cancel_left h⟩
  | _ => simp [layout] at hlayout

theorem recovered_where {x : String} {a b : Term} (ht : (Term.define .whereIn x a b).Legible)
    (iha : a.Recovered) (ihb : b.Recovered) : (Term.define .whereIn x a b).Recovered := by
  intro u hu r s hr hs h
  have hlayout := layout_eq ht hu hr hs h
  cases u with
  | app l' r' =>
      simp only [written_where, written_app, List.cons_append, List.append_assoc, List.nil_append,
        List.cons.injEq, true_and] at h
      obtain ⟨-, h⟩ := ihb l' hu.app.1 _ _ (stops_append (by decide) _) (stops_cons (by simp) _) h
      exact absurd h.symm (hu.app.2.append_ne_where (stops_cons (by simp) _) _)
  | define form y c d =>
      cases form with
      | letIn => simp [layout] at hlayout
      | whereIn =>
          obtain ⟨hx, -⟩ := ht.define
          obtain ⟨hy, hc, hd⟩ := hu.define
          simp only [written_where, List.cons_append, List.append_assoc, List.nil_append, List.cons.injEq,
            true_and] at h
          obtain ⟨hbody, h⟩ := ihb d hd _ _ (stops_append (by decide) _) (stops_append (by decide) _) h
          obtain ⟨hname, h⟩ := hx.append_inj hy (stops_append (by decide) _).breaks
            (stops_append (by decide) _).breaks (List.append_cancel_left h)
          obtain ⟨hassign, h⟩ := iha c hc _ _ (stops_cons (by simp) _) (stops_cons (by simp) _)
            (List.append_cancel_left h)
          exact ⟨by simp [hname, hassign, hbody], (List.cons.inj h).2⟩
  | _ => simp [layout] at hlayout

theorem recovered_app {l r : Term} (ht : (Term.app l r).Legible) (ihl : l.Recovered)
    (ihr : r.Recovered) : (Term.app l r).Recovered := by
  intro u hu after after' hafter hafter' h
  have hlayout := layout_eq ht hu hafter hafter' h
  cases u with
  | app l' r' =>
      simp only [written_app, List.cons_append, List.append_assoc, List.nil_append, List.cons.injEq,
        true_and] at h
      obtain ⟨hl, h⟩ := ihl l' hu.app.1 _ _ (stops_cons (by simp) _) (stops_cons (by simp) _) h
      obtain ⟨hr, h⟩ := ihr r' hu.app.2 _ _ (stops_cons (by simp) _) (stops_cons (by simp) _)
        (List.cons.inj h).2
      exact ⟨by simp [hl, hr], (List.cons.inj h).2⟩
  | define form y c d =>
      cases form with
      | letIn => simp [layout] at hlayout
      | whereIn =>
          simp only [written_where, written_app, List.cons_append, List.append_assoc, List.nil_append,
            List.cons.injEq, true_and] at h
          obtain ⟨-, h⟩ := ihl d hu.define.2.2 _ _ (stops_cons (by simp) _) (stops_append (by decide) _) h
          exact absurd h (ht.app.2.append_ne_where (stops_cons (by simp) _) _)
  | _ => simp [layout] at hlayout

theorem recovered_recur {defs : List (String × Term)} {b : Term} (ht : (Term.recur defs b).Legible)
    (ihd : ∀ p ∈ defs, p.2.Recovered) (ihb : b.Recovered) : (Term.recur defs b).Recovered := by
  intro u hu r s hr hs h
  have hlayout := layout_eq ht hu hr hs h
  cases u with
  | recur defs' b' =>
      simp only [written_recur, List.append_assoc, List.append_cancel_left_eq] at h
      have hfirst {p : String × Term} (hp : PlainName p.1) (r s : List Char) :
          writtenDef p ++ r ≠ " in ".toList ++ s := by
        obtain ⟨c, w, hw, hc⟩ := hp.toList_eq_cons
        rw [writtenDef, hw]
        intro h
        obtain rfl : c = ' ' := by simpa using congrArg List.head? h
        revert hc
        decide
      obtain ⟨hdefs, h⟩ := intercalate_append_inj " and ".toList " in ".toList
        (f := fun p : String × Term => (p.1, p.2.forgetActions))
        (P := fun p : String × Term => PlainName p.1 ∧ p.2.Legible)
        (fun _ => stops_append (by decide) _) (fun _ => stops_append (by decide) _)
        (fun p _ r s => by simp) (fun p hp r s => hfirst hp.1 r s)
        (fun p hp => ⟨ht.recur.1 p hp, def_readsBack (ht.recur.1 p hp).1 (ihd p hp)⟩) hu.recur.1 h
      obtain ⟨hbody, h⟩ := ihb b' hu.recur.2 _ _ (stops_append (by decide) _)
        (stops_append (by decide) _) h
      exact ⟨by simp [hdefs, hbody], List.append_cancel_left h⟩
  | define form => cases form <;> simp [layout] at hlayout
  | _ => simp [layout] at hlayout

theorem Legible.recovered (ht : t.Legible) : t.Recovered := by
  induction t using induction_on with
  | var v => exact recovered_var ht
  | abs binders body ih => exact recovered_abs ht (ih ht.abs.2)
  | app l r ihl ihr => exact recovered_app ht (ihl ht.app.1) (ihr ht.app.2)
  | const c => exact recovered_const ht
  | list elems ih => exact recovered_list ht fun t hmem => ih t hmem (ht.list t hmem)
  | instr head args ih => exact recovered_instr ht fun t hmem => ih t hmem (ht.instr.2.2 t hmem)
  | define form x a b iha ihb =>
      obtain ⟨-, ha, hb⟩ := ht.define
      cases form with
      | letIn => exact recovered_let ht (iha ha) (ihb hb)
      | whereIn => exact recovered_where ht (iha ha) (ihb hb)
  | recur defs b ihd ihb =>
      exact recovered_recur ht (fun p hp => ihd p hp (ht.recur.1 p hp).2) (ihb ht.recur.2)

/-! ## The main result -/

/-- **The strict form is unambiguous.** Two terms whose names are plain and whose instructions hold no
more arguments than they take have the same strict form exactly if they are the same term, up to which
instructions have actions. -/
theorem strictDisplay_unambiguous {t u : Term} (ht : t.Legible) (hu : u.Legible) :
    t.strictDisplay = u.strictDisplay ↔ t.forgetActions = u.forgetActions := by
  constructor
  · intro h
    have hwritten : t.written ++ [] = u.written ++ [] := by rw [written, h, written]
    exact (ht.recovered u hu [] [] (by simp [Stops]) (by simp [Stops]) hwritten).1
  · intro h
    have hform (t : Term) : t.strictDisplay = t.forgetActions.strictDisplay :=
      (render_forgetActions .standard true t).symm
    rw [hform t, hform u, h]

/-- `(rec f = instruction[succ x[1] _] in ((λx[2] $e0[1] . (x[2] [f, a])) where a = 0))`: that `succ` has
an action does not show, that it waits for another argument does. -/
theorem strictDisplay_unambiguous_of_instruction :
    let t (arity : Nat) (action : Option String) : Term :=
      .recur [("f", .instr ⟨"succ", arity, action⟩ [.var ⟨"x", 1⟩])]
        (.define .whereIn "a" (.const "0") (.abs [⟨"x", 2⟩, ⟨"$e0", 1⟩]
          (.app (.var ⟨"x", 2⟩) (.list [.const "f", .const "a"]))))
    (t 2 "succ").Legible ∧ (t 2 none).Legible ∧ (t 1 "succ").Legible ∧
      (t 2 "succ").strictDisplay = (t 2 none).strictDisplay ∧
      (t 2 "succ").strictDisplay ≠ (t 1 "succ").strictDisplay := by
  intro t
  have h : (t 2 "succ").Legible ∧ (t 2 none).Legible ∧ (t 1 "succ").Legible := by decide +kernel
  refine ⟨h.1, h.2.1, h.2.2, (strictDisplay_unambiguous h.1 h.2.1).mpr rfl, fun hsame => ?_⟩
  have hterm : (t 2 "succ").forgetActions = (t 1 "succ").forgetActions :=
    (strictDisplay_unambiguous h.1 h.2.2).mp hsame
  revert hterm
  decide

-- a variable with the name of a keyword would be taken for an instruction
example : (Term.var ⟨"instruction", 0⟩).strictDisplay =
    (Term.instr ⟨"0", 0, none⟩ []).strictDisplay := by
  decide +kernel

end Term

end IndexedLambda
