import IndexedLambda.Proofs.Keys
import IndexedLambda.Proofs.Term.Rewriting
import IndexedLambda.Term.Glyphs
import IndexedLambda.Term.Occurrence
/-!
# The strict form of a term

What the strict form shows of a term: everything except whether instructions have actions
(`Term.forgetActions`). This module spells the form out character by character, for a term that is
followed by more text, and says which names can be told from the marks and words around them
(`PlainName`).
-/

namespace IndexedLambda

/-! ## Names -/

/-- Letters, digits and the dollar sign. -/
def isNameChar (c : Char) : Bool := c.isAlphanum || c == '$'

/-- The words that belong to the form itself. -/
def keywords : List String := ["let", "in", "where", "rec", "and", "instruction"]

/-- A name of letters, digits and dollar signs that is no keyword. -/
structure PlainName (x : String) : Prop where
  ne_empty : x ≠ ""
  chars : ∀ c ∈ x.toList, isNameChar c = true
  not_keyword : x ∉ keywords

instance (x : String) : Decidable (PlainName x) :=
  decidable_of_iff (x ≠ "" ∧ x.toList.all isNameChar = true ∧ x ∉ keywords)
    ⟨fun ⟨h, h', h''⟩ => ⟨h, List.all_eq_true.mp h', h''⟩,
      fun ⟨h, h', h''⟩ => ⟨h, List.all_eq_true.mpr h', h''⟩⟩

/-- Demands plain names of instructions, and no more arguments than they take. -/
def Discipline.legible : Discipline where
  occurrence _ _ := True
  binders _ _ := True
  arguments head n := PlainName head.name ∧ n ≤ head.arity
  definitions _ := True

instance : Discipline.legible.Decides where
  occurrence _ _ := inferInstanceAs (Decidable True)
  binders _ _ := inferInstanceAs (Decidable True)
  arguments head n := inferInstanceAs (Decidable (PlainName head.name ∧ n ≤ head.arity))
  definitions _ := inferInstanceAs (Decidable True)

/-- After the first text every text comes with a separator. -/
theorem intercalate_cons_eq_flatMap {α : Type} (sep x : List α) (xs : List (List α)) :
    sep.intercalate (x :: xs) = x ++ xs.flatMap fun y => sep ++ y := by
  induction xs generalizing x with
  | nil => simp
  | cons y ys ih => rw [List.intercalate_cons_cons, ih]; simp

namespace Term

/-- All names in the term are plain, and no instruction holds more arguments than it takes. -/
def Legible (t : Term) : Prop := (∀ x ∈ t.names, PlainName x) ∧ t.Respects .legible []

instance (t : Term) : Decidable t.Legible :=
  inferInstanceAs (Decidable ((∀ x ∈ t.names, PlainName x) ∧ t.Respects .legible []))

theorem mem_namesList {x : String} {ts : List Term} : x ∈ namesList ts ↔ ∃ t ∈ ts, x ∈ t.names := by
  induction ts with
  | nil => simp [namesList]
  | cons t ts ih => simp [namesList, ih]

theorem mem_namesDefs {x : String} {defs : List (String × Term)} :
    x ∈ namesDefs defs ↔ ∃ p ∈ defs, x = p.1 ∨ x ∈ p.2.names := by
  induction defs with
  | nil => simp [namesDefs]
  | cons p defs ih => simp [namesDefs, ih, or_assoc]

/-- What is asked of instructions does not depend on where they stand. -/
theorem Respects.legible {scope scope' : List String} {t : Term} (ht : t.Respects .legible scope) :
    t.Respects .legible scope' := by
  rw [← rewrite_id (j := 0) t]
  exact ht.rewrite ⟨fun _ _ _ => respects_var.mpr trivial, fun _ _ h => h, fun _ _ h => h, fun _ h => h⟩

/-- A part of a legible term is legible. -/
theorem Legible.part {scope : List String} {t u : Term} (ht : t.Legible) (hnames : u.names ⊆ t.names)
    (hu : u.Respects .legible scope) : u.Legible :=
  ⟨fun x hx => ht.1 x (hnames hx), hu.legible⟩

namespace Legible

theorem var {v : Variable} (h : (Term.var v).Legible) : PlainName v.name :=
  h.1 _ (List.mem_singleton_self v.name)

theorem of_name {v : Variable} (h : PlainName v.name) : (Term.var v).Legible :=
  ⟨fun _ hx => List.mem_singleton.mp hx ▸ h, respects_var.mpr trivial⟩

theorem const {c : String} (h : (Term.const c).Legible) : PlainName c :=
  h.1 _ (List.mem_singleton_self c)

theorem abs {binders : List Variable} {body : Term} (h : (Term.abs binders body).Legible) :
    (∀ v ∈ binders, PlainName v.name) ∧ body.Legible :=
  ⟨fun _ hv => h.1 _ (List.mem_append_left _ (List.mem_map_of_mem hv)),
    h.part (List.subset_append_right _ _) (respects_abs.mp h.2).2⟩

theorem app {l r : Term} (h : (Term.app l r).Legible) : l.Legible ∧ r.Legible :=
  ⟨h.part (List.subset_append_left _ _) (respects_app.mp h.2).1,
    h.part (List.subset_append_right _ _) (respects_app.mp h.2).2⟩

theorem list {elems : List Term} (h : (Term.list elems).Legible) : ∀ t ∈ elems, t.Legible :=
  fun t ht => h.part (fun _ hx => mem_namesList.mpr ⟨t, ht, hx⟩) (respects_list.mp h.2 t ht)

theorem instr {head : InstructionHead} {args : List Term} (h : (Term.instr head args).Legible) :
    PlainName head.name ∧ args.length ≤ head.arity ∧ ∀ t ∈ args, t.Legible := by
  obtain ⟨⟨hname, hlength⟩, hargs⟩ := respects_instr.mp h.2
  exact ⟨hname, hlength, fun t ht => h.part (fun _ hx => mem_namesList.mpr ⟨t, ht, hx⟩) (hargs t ht)⟩

theorem define {form : LetForm} {x : String} {a b : Term} (h : (Term.define form x a b).Legible) :
    PlainName x ∧ a.Legible ∧ b.Legible := by
  obtain ⟨ha, hb⟩ := respects_define.mp h.2
  refine ⟨h.1 x List.mem_cons_self, h.part (fun y hy => ?_) ha, h.part (fun y hy => ?_) hb⟩
  · exact List.mem_cons_of_mem x (List.mem_append_left b.names hy)
  · exact List.mem_cons_of_mem x (List.mem_append_right a.names hy)

theorem recur {defs : List (String × Term)} {b : Term} (h : (Term.recur defs b).Legible) :
    (∀ p ∈ defs, PlainName p.1 ∧ p.2.Legible) ∧ b.Legible := by
  obtain ⟨-, hdefs, hb⟩ := respects_recur.mp h.2
  have hnames {y : String} {p : String × Term} (hp : p ∈ defs) (hy : y = p.1 ∨ y ∈ p.2.names) :
      y ∈ (Term.recur defs b).names :=
    List.mem_append_left _ (mem_namesDefs.mpr ⟨p, hp, hy⟩)
  refine ⟨fun p hp => ⟨h.1 _ (hnames hp (.inl rfl)), ?_⟩, h.part (List.subset_append_right _ _) hb⟩
  exact h.part (fun _ hy => hnames hp (.inr hy)) (hdefs p hp)

end Legible

/-! ## What the form leaves out -/

/-- The term in which no instruction has an action. -/
def forgetActions (t : Term) : Term := t.mapHeads fun head => { head with action := none }

@[simp] theorem forgetActions_abs (binders : List Variable) (body : Term) :
    (abs binders body).forgetActions = abs binders body.forgetActions := rfl

@[simp] theorem forgetActions_app (l r : Term) :
    (app l r).forgetActions = app l.forgetActions r.forgetActions := rfl

@[simp] theorem forgetActions_define (form : LetForm) (x : String) (a b : Term) :
    (define form x a b).forgetActions = define form x a.forgetActions b.forgetActions := rfl

@[simp] theorem forgetActions_list (elems : List Term) :
    (list elems).forgetActions = list (elems.map forgetActions) :=
  congrArg list (mapHeadsList_eq_map _ elems)

@[simp] theorem forgetActions_instr (head : InstructionHead) (args : List Term) :
    (instr head args).forgetActions =
      instr { head with action := none } (args.map forgetActions) :=
  congrArg (instr _) (mapHeadsList_eq_map _ args)

@[simp] theorem forgetActions_recur (defs : List (String × Term)) (b : Term) :
    (recur defs b).forgetActions =
      recur (defs.map fun p => (p.1, p.2.forgetActions)) b.forgetActions :=
  congrArg (recur · b.forgetActions) (mapHeadsDefs_eq_map _ defs)

theorem renderList_eq_map (g : Glyphs) (strict : Bool) (ts : List Term) :
    renderList g strict ts = ts.map (render g strict) := by
  induction ts with
  | nil => rfl
  | cons t ts ih => exact congrArg (t.render g strict :: ·) ih

theorem renderDefs_eq_map (g : Glyphs) (strict : Bool) (defs : List (String × Term)) :
    renderDefs g strict defs = defs.map fun p => p.1 ++ " = " ++ p.2.render g strict := by
  induction defs with
  | nil => rfl
  | cons p defs ih => exact congrArg ((p.1 ++ " = " ++ p.2.render g strict) :: ·) ih

/-- Nothing in a written form depends on the actions of instructions. -/
theorem render_forgetActions (g : Glyphs) (strict : Bool) (t : Term) :
    t.forgetActions.render g strict = t.render g strict := by
  have hlist {ts : List Term} (ih : ∀ t ∈ ts, t.forgetActions.render g strict = t.render g strict) :
      renderList g strict (ts.map forgetActions) = renderList g strict ts := by
    simp only [renderList_eq_map, List.map_map]
    exact List.map_congr_left ih
  induction t using induction_on with
  | var v => rfl
  | abs binders body ih => simp [render, ih]
  | app l r ihl ihr => simp [render, ihl, ihr]
  | const c => rfl
  | list elems ih => simp [render, hlist ih]
  | instr head args ih => simp [render, hlist ih]
  | define form x a b iha ihb => cases form <;> simp [render, iha, ihb]
  | recur defs b ihd ihb =>
      have hdefs : renderDefs g strict (defs.map fun p => (p.1, p.2.forgetActions)) =
          renderDefs g strict defs := by
        simp only [renderDefs_eq_map, List.map_map]
        exact List.map_congr_left fun p hp => by simp [ihd p hp]
      simp [render, ihb, hdefs]

/-! ## The form, character by character -/

/-- The characters of the strict form. -/
def written (t : Term) : List Char := t.strictDisplay.toList

theorem written_var (v : Variable) :
    (Term.var v).written = v.name.toList ++ '[' :: (v.depth.repr.toList ++ [']']) := v.toList_key

theorem written_const (c : String) : (Term.const c).written = c.toList := rfl

theorem written_app (l r : Term) :
    (Term.app l r).written = '(' :: (l.written ++ ' ' :: (r.written ++ [')'])) := by
  show ("(" ++ l.strictDisplay ++ " " ++ r.strictDisplay ++ ")").toList = _
  simp [written]

theorem written_abs (binders : List Variable) (body : Term) :
    (Term.abs binders body).written = '(' :: 'λ' ::
      ([' '].intercalate (binders.map fun v => (Term.var v).written) ++
        ' ' :: '.' :: ' ' :: (body.written ++ [')'])) := by
  show ("(" ++ "λ" ++ " ".intercalate (binders.map fun v => (Term.var v).strictDisplay) ++ " . " ++
    body.strictDisplay ++ ")").toList = _
  simp [written, String.toList_intercalate, Function.comp_def]

theorem map_written (ts : List Term) :
    ts.map written = (renderList .standard true ts).map String.toList := by
  rw [renderList_eq_map, List.map_map]
  rfl

theorem written_list (elems : List Term) :
    (Term.list elems).written = '[' :: ([',', ' '].intercalate (elems.map written) ++ [']']) := by
  show ("[" ++ ", ".intercalate (renderList .standard true elems) ++ "]").toList = _
  rw [map_written]
  simp [String.toList_intercalate]

/-- A place for an argument: the argument, or a mark if it is missing. -/
def writtenPlace : Option Term → List Char
  | some t => t.written
  | none => ['_']

/-- The places of an instruction, one for each argument it takes. -/
def places (head : InstructionHead) (args : List Term) : List (Option Term) :=
  args.map some ++ List.replicate (head.arity - args.length) none

theorem written_instr (head : InstructionHead) (args : List Term) :
    (Term.instr head args).written = "instruction[".toList ++ (head.name.toList ++
      ((places head args).flatMap (fun place => ' ' :: writtenPlace place) ++ [']'])) := by
  have hplaces : (places head args).map writtenPlace =
      (renderList .standard true args ++ List.replicate (head.arity - args.length) "_").map
        String.toList := by
    simp [places, Function.comp_def, writtenPlace, ← map_written]
  have hflat : (places head args).flatMap (fun place => ' ' :: writtenPlace place) =
      ((places head args).map writtenPlace).flatMap fun y => [' '] ++ y := by
    simp [List.flatMap_map]
  show ("instruction[" ++ " ".intercalate (head.name :: (renderList .standard true args ++
    List.replicate (head.arity - args.length) "_")) ++ "]").toList = _
  rw [hflat, hplaces]
  simp only [String.toList_append, String.toList_intercalate, List.map_cons,
    intercalate_cons_eq_flatMap]
  simp

theorem written_let (x : String) (a b : Term) : (Term.define .letIn x a b).written =
    "(let ".toList ++ (x.toList ++ (" = ".toList ++ (a.written ++
      (" in ".toList ++ (b.written ++ [')']))))) := by
  show ("(" ++ "let " ++ x ++ " = " ++ a.strictDisplay ++ " in " ++ b.strictDisplay ++ ")").toList = _
  simp [written]

theorem written_where (x : String) (a b : Term) : (Term.define .whereIn x a b).written =
    '(' :: (b.written ++ (" where ".toList ++ (x.toList ++ (" = ".toList ++ (a.written ++ [')']))))) := by
  show ("(" ++ b.strictDisplay ++ " where " ++ x ++ " = " ++ a.strictDisplay ++ ")").toList = _
  simp [written]

/-- A definition of a recursive block. -/
def writtenDef (p : String × Term) : List Char := p.1.toList ++ (" = ".toList ++ p.2.written)

theorem written_recur (defs : List (String × Term)) (b : Term) : (Term.recur defs b).written =
    "(rec ".toList ++ (" and ".toList.intercalate (defs.map writtenDef) ++
      (" in ".toList ++ (b.written ++ [')']))) := by
  have hdefs : defs.map writtenDef = (renderDefs .standard true defs).map String.toList := by
    rw [renderDefs_eq_map, List.map_map]
    simp [writtenDef, Function.comp_def, written, strictDisplay]
  show ("(" ++ "rec " ++ " and ".intercalate (renderDefs .standard true defs) ++ " in " ++
    b.strictDisplay ++ ")").toList = _
  rw [hdefs]
  simp [written, String.toList_intercalate]

end Term

end IndexedLambda
