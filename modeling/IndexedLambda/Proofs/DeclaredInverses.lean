import IndexedLambda.Proofs.Inference.Fresh
/-!
# Declared inverses

A name table is changed by three calls: one makes a fresh variable, one defines a name, and one declares
two names inverses of each other. `NameTable.Effect` says what each of them does, and that a refused call
does nothing. Everything else is read off from it.

Tables only ever gain entries (`NameTable.Extends`), so a definition or an inverse that is there stays
there. An inverse is entered for both names together and only if neither has one, so the declared
inverses are symmetric, and each of them goes back to a call that was accepted
(`NameTable.inverses_run`).
-/

namespace IndexedLambda.NameTable

/-! ## Calls -/

/-- A call that changes a name table. -/
inductive Call where
  | freshVar
  | define (x : String) (t : Term)
  | declareInverse (f g : String)

/-- Whether a computation ended with a value. -/
def ended {ε σ α : Type} : EStateM.Result ε σ α → Bool
  | .ok _ _ => true
  | .error _ _ => false

/-- The table that a call leaves behind. -/
def after (table : NameTable) : Call → NameTable
  | .freshVar => endOf (freshVar table)
  | .define x t => endOf (define x t table)
  | .declareInverse f g => endOf (declareInverse f g table)

/-- Whether the call is carried out, and not refused. -/
def accepts (table : NameTable) : Call → Bool
  | .freshVar => ended (freshVar table)
  | .define x t => ended (define x t table)
  | .declareInverse f g => ended (declareInverse f g table)

/-- The calls of a sequence that are accepted, each by the table it comes to. -/
def accepted : NameTable → List Call → List Call
  | _, [] => []
  | table, call :: calls =>
    if table.accepts call then call :: accepted (table.after call) calls
    else accepted (table.after call) calls

variable {table table' : NameTable}

theorem lookup_eq_none_iff {x : String} : table.lookup x = none ↔ x ∉ table.definitions :=
  getElem?_eq_none_iff _ _

theorem define_of_new {x : String} (h : table.lookup x = none) (t : Term) : define x t table =
    .ok () { table with definitions := table.definitions.insert x t } := by
  unfold define
  rw [Stateful.get_then, if_neg (lookup_eq_none_iff.mp h)]
  rfl

theorem define_of_taken {x : String} (h : table.lookup x ≠ none) (t : Term) :
    define x t table = .error (.alreadyDefined x) table := by
  have hmem : x ∈ table.definitions := Decidable.not_not.mp fun hx => h (lookup_eq_none_iff.mpr hx)
  unfold define
  rw [Stateful.get_then, if_pos hmem]
  rfl

/-- Both names are defined, and neither has an inverse. -/
structure Unpaired (table : NameTable) (f g : String) : Prop where
  left : table.lookup f ≠ none
  right : table.lookup g ≠ none
  left_free : table.inverses[f]? = none
  right_free : table.inverses[g]? = none

theorem declareInverse_of_unpaired {f g : String} (h : table.Unpaired f g) :
    declareInverse f g table =
      .ok () { table with inverses := (table.inverses.insert f g).insert g f } := by
  unfold declareInverse
  rw [Stateful.get_then, if_neg fun hf => h.left (lookup_eq_none_iff.mpr hf),
    if_neg fun hg => h.right (lookup_eq_none_iff.mpr hg),
    if_neg ((getElem?_eq_none_iff _ _).mp h.left_free),
    if_neg ((getElem?_eq_none_iff _ _).mp h.right_free)]
  rfl

theorem declareInverse_of_paired {f g : String} (h : ¬table.Unpaired f g) :
    ∃ e, declareInverse f g table = .error e table := by
  unfold declareInverse
  rw [Stateful.get_then]
  by_cases hf : f ∉ table.definitions
  · exact ⟨_, by rw [if_pos hf]; rfl⟩
  by_cases hg : g ∉ table.definitions
  · exact ⟨_, by rw [if_neg hf, if_pos hg]; rfl⟩
  by_cases hf' : f ∈ table.inverses
  · exact ⟨_, by rw [if_neg hf, if_neg hg, if_pos hf']; rfl⟩
  by_cases hg' : g ∈ table.inverses
  · exact ⟨_, by rw [if_neg hf, if_neg hg, if_neg hf', if_pos hg']; rfl⟩
  · exact absurd ⟨mt lookup_eq_none_iff.mp hf, mt lookup_eq_none_iff.mp hg,
      (getElem?_eq_none_iff _ _).mpr hf', (getElem?_eq_none_iff _ _).mpr hg'⟩ h

/-- What a call does. -/
inductive Effect (table : NameTable) : Call → Bool → NameTable → Prop
  | drawn : table.nextVar + 1 < counterRange →
      Effect table .freshVar true { table with nextVar := table.nextVar + 1 }
  | defined {x : String} {t : Term} : table.lookup x = none →
      Effect table (.define x t) true { table with definitions := table.definitions.insert x t }
  | declared {f g : String} : table.Unpaired f g →
      Effect table (.declareInverse f g) true
        { table with inverses := (table.inverses.insert f g).insert g f }
  | exhausted : ¬table.nextVar + 1 < counterRange → Effect table .freshVar false table
  | taken {x : String} {t : Term} : table.lookup x ≠ none → Effect table (.define x t) false table
  | refused {f g : String} : ¬table.Unpaired f g → Effect table (.declareInverse f g) false table

theorem effect (table : NameTable) (call : Call) :
    Effect table call (table.accepts call) (table.after call) := by
  cases call with
  | freshVar =>
      show Effect table _ (ended (freshVar table)) (endOf (freshVar table))
      rw [freshVar_eq]
      by_cases hroom : table.nextVar + 1 < counterRange
      · rw [if_pos hroom]
        exact .drawn hroom
      · rw [if_neg hroom]
        exact .exhausted hroom
  | define x t =>
      show Effect table _ (ended (define x t table)) (endOf (define x t table))
      by_cases hnew : table.lookup x = none
      · rw [define_of_new hnew]
        exact .defined hnew
      · rw [define_of_taken hnew]
        exact .taken hnew
  | declareInverse f g =>
      show Effect table _ (ended (declareInverse f g table)) (endOf (declareInverse f g table))
      by_cases hfree : table.Unpaired f g
      · rw [declareInverse_of_unpaired hfree]
        exact .declared hfree
      · obtain ⟨e, he⟩ := declareInverse_of_paired hfree
        rw [he]
        exact .refused hfree

theorem after_of_refused {call : Call} (h : table.accepts call = false) :
    table.after call = table := by
  have heffect := table.effect call
  rw [h] at heffect
  generalize table.after call = table' at heffect ⊢
  cases heffect <;> rfl

theorem accepts_define {x : String} {t : Term} :
    table.accepts (.define x t) = true ↔ table.lookup x = none := by
  have heffect := table.effect (.define x t)
  generalize table.accepts _ = answer, table.after _ = table' at heffect ⊢
  cases heffect with
  | defined hnew => simp [hnew]
  | taken htaken => simp [htaken]

theorem accepts_declareInverse {f g : String} :
    table.accepts (.declareInverse f g) = true ↔ table.Unpaired f g := by
  have heffect := table.effect (.declareInverse f g)
  generalize table.accepts _ = answer, table.after _ = table' at heffect ⊢
  cases heffect with
  | declared hfree => simp [hfree]
  | refused hpaired => simp [hpaired]

/-! ## Nothing is ever lost -/

/-- The second table has all entries of the first. -/
structure Extends (table table' : NameTable) : Prop where
  definitions : ∀ x t, table.lookup x = some t → table'.lookup x = some t
  inverses : ∀ f g : String, table.inverses[f]? = some g → table'.inverses[f]? = some g

namespace Extends

theorem refl (table : NameTable) : Extends table table := ⟨fun _ _ h => h, fun _ _ h => h⟩

theorem trans {table'' : NameTable} (h : Extends table table') (h' : Extends table' table'') :
    Extends table table'' :=
  ⟨fun x t ht => h'.definitions x t (h.definitions x t ht),
    fun f g hg => h'.inverses f g (h.inverses f g hg)⟩

theorem inverse (h : Extends table table') {s t : Term} (hs : table.inverse s = some t) :
    table'.inverse s = some t := by
  cases s with
  | const f =>
      obtain ⟨g, hg, ht⟩ := Option.bind_eq_some_iff.mp hs
      exact Option.bind_eq_some_iff.mpr ⟨g, h.inverses f g hg, h.definitions g t ht⟩
  | _ => cases hs

end Extends

theorem getElem?_declared (inverses : Std.ExtTreeMap String String) (f g z : String) :
    ((inverses.insert f g).insert g f)[z]? =
      if g = z then some f else if f = z then some g else inverses[z]? := by
  simp [Std.ExtTreeMap.getElem?_insert]

theorem extends_after (table : NameTable) (call : Call) : Extends table (table.after call) := by
  have heffect := table.effect call
  generalize table.accepts call = answer, table.after call = table' at heffect ⊢
  cases heffect with
  | @defined x t hnew =>
      refine ⟨?_, fun _ _ h => h⟩
      intro z u hz
      have hxz : ¬x = z := by
        rintro rfl
        rw [hnew] at hz
        cases hz
      have hother : (table.definitions.insert x t)[z]? = table.definitions[z]? := by
        simp [Std.ExtTreeMap.getElem?_insert, hxz]
      exact hother.trans hz
  | @declared f g hfree =>
      refine ⟨fun _ _ h => h, ?_⟩
      intro z w hz
      have hf : ¬f = z := by
        rintro rfl
        rw [hfree.left_free] at hz
        cases hz
      have hg : ¬g = z := by
        rintro rfl
        rw [hfree.right_free] at hz
        cases hz
      rw [getElem?_declared, if_neg hg, if_neg hf]
      exact hz
  | _ => exact ⟨fun _ _ h => h, fun _ _ h => h⟩

theorem extends_run (table : NameTable) (calls : List Call) :
    Extends table (calls.foldl after table) := by
  refine List.foldlRecOn calls after (.refl table) ?_
  intro current h call _
  exact h.trans (current.extends_after call)

/-! ## Where inverses come from -/

/-- A call enters an inverse if it declares it, one way or the other, and is accepted. -/
theorem inverses_after (table : NameTable) (call : Call) (f g : String) :
    (table.after call).inverses[f]? = some g ↔ table.inverses[f]? = some g ∨
      table.accepts call = true ∧ (call = .declareInverse f g ∨ call = .declareInverse g f) := by
  have heffect := table.effect call
  generalize table.accepts call = answer, table.after call = table' at heffect ⊢
  cases heffect with
  | @declared a b hfree =>
      rw [getElem?_declared]
      by_cases hb : b = f
      · subst hb
        have hway : a = g ↔ a = b ∧ b = g ∨ a = g := by
          refine ⟨.inr, ?_⟩
          rintro (⟨rfl, rfl⟩ | rfl) <;> rfl
        simpa [hfree.right_free] using hway
      · by_cases ha : a = f
        · subst ha
          simp [hb, hfree.left_free]
        · simp [ha, hb]
  | _ => simp

theorem inverses_run (table : NameTable) (calls : List Call) (f g : String) :
    (calls.foldl after table).inverses[f]? = some g ↔ table.inverses[f]? = some g ∨
      .declareInverse f g ∈ table.accepted calls ∨ .declareInverse g f ∈ table.accepted calls := by
  induction calls generalizing table with
  | nil => simp [accepted]
  | cons call calls ih =>
      rw [List.foldl_cons, ih, inverses_after, accepted]
      cases table.accepts call with
      | false => simp
      | true =>
          simp only [if_true, List.mem_cons, true_and, eq_comm (a := call)]
          tauto

/-- Names that have an inverse are defined. -/
def Defined (table : NameTable) : Prop :=
  ∀ f g : String, table.inverses[f]? = some g → table.lookup f ≠ none ∧ table.lookup g ≠ none

theorem Defined.after (h : table.Defined) (call : Call) : (table.after call).Defined := by
  have hextends := table.extends_after call
  have hkept : ∀ x, table.lookup x ≠ none → (table.after call).lookup x ≠ none := by
    intro x hx
    obtain ⟨t, ht⟩ := Option.ne_none_iff_exists'.mp hx
    rw [hextends.definitions x t ht]
    exact Option.some_ne_none t
  intro f g hg
  rcases (inverses_after table call f g).mp hg with hold | ⟨haccepts, rfl | rfl⟩
  · exact ⟨hkept f (h f g hold).1, hkept g (h f g hold).2⟩
  · have hfree := accepts_declareInverse.mp haccepts
    exact ⟨hkept f hfree.left, hkept g hfree.right⟩
  · have hfree := accepts_declareInverse.mp haccepts
    exact ⟨hkept f hfree.right, hkept g hfree.left⟩

theorem Defined.run (h : table.Defined) (calls : List Call) :
    (calls.foldl NameTable.after table).Defined := by
  refine List.foldlRecOn calls NameTable.after h ?_
  intro current h call _
  exact h.after call

theorem Defined.inverse (h : table.Defined) {f g : String} (hg : table.inverses[f]? = some g) :
    ∃ t, table.lookup g = some t ∧ table.inverse (.const f) = some t := by
  obtain ⟨t, ht⟩ := Option.ne_none_iff_exists'.mp (h f g hg).2
  exact ⟨t, ht, Option.bind_eq_some_iff.mpr ⟨g, hg, ht⟩⟩

/-- **Declared inverses are a partial involution.** After any calls on an empty table, a name has another
one as its inverse exactly if a call that declared them inverses of each other was accepted, so the
relation is symmetric. Both names are defined, and asking for the inverse of one gives the definition of
the other. Later calls change no definition and no inverse. A name can be defined unless it is defined
already, and two names can be declared inverses if they are defined and have no inverse; whatever is
refused leaves the table as it was. -/
theorem inverses_partial_involution (offset : Nat) (calls : List Call) :
    let table := calls.foldl after (startingAt offset)
    (∀ f g : String, table.inverses[f]? = some g ↔
      .declareInverse f g ∈ accepted (startingAt offset) calls ∨
        .declareInverse g f ∈ accepted (startingAt offset) calls) ∧
    (∀ f g : String, table.inverses[f]? = some g ↔ table.inverses[g]? = some f) ∧
    (∀ f g : String, table.inverses[f]? = some g → ∃ s t,
      table.lookup f = some s ∧ table.lookup g = some t ∧
        table.inverse (.const f) = some t ∧ table.inverse (.const g) = some s) ∧
    (∀ later : List Call, Extends table (later.foldl after table) ∧
      ∀ s t, table.inverse s = some t → (later.foldl after table).inverse s = some t) ∧
    (∀ x t, table.accepts (.define x t) = true ↔ table.lookup x = none) ∧
    (∀ f g, table.accepts (.declareInverse f g) = true ↔ table.Unpaired f g) ∧
    ∀ call, table.accepts call = false → table.after call = table := by
  intro table
  have hdeclared : ∀ f g : String, table.inverses[f]? = some g ↔
      .declareInverse f g ∈ accepted (startingAt offset) calls ∨
        .declareInverse g f ∈ accepted (startingAt offset) calls := by
    intro f g
    have hempty : (startingAt offset).inverses[f]? ≠ some g := by simp [startingAt]
    exact (inverses_run (startingAt offset) calls f g).trans (or_iff_right hempty)
  have hsymm : ∀ f g : String, table.inverses[f]? = some g ↔ table.inverses[g]? = some f := by
    intro f g
    rw [hdeclared, hdeclared, or_comm]
  have hdefined : table.Defined := by
    refine Defined.run ?_ calls
    intro f g hg
    simp [startingAt] at hg
  refine ⟨hdeclared, hsymm, ?_, ?_, fun x t => accepts_define, fun f g => accepts_declareInverse,
    fun call hcall => after_of_refused hcall⟩
  · intro f g hg
    obtain ⟨t, ht, hinverse⟩ := hdefined.inverse hg
    obtain ⟨s, hs, hinverse'⟩ := hdefined.inverse ((hsymm f g).mp hg)
    exact ⟨s, t, hs, ht, hinverse, hinverse'⟩
  · intro later
    have hextends := extends_run table later
    exact ⟨hextends, fun s t hinverse => hextends.inverse hinverse⟩

/-- `encode` and `decode` are declared inverses, and `not` its own. Declaring the first two again with
their roles exchanged is refused, and so is a new definition of `encode`. -/
theorem inverses_partial_involution_of_codec :
    let calls : List Call := [.define "encode" (.const "E"), .freshVar, .define "decode" (.const "D"),
      .declareInverse "encode" "decode", .define "not" (.const "N"), .declareInverse "not" "not"]
    let table := calls.foldl after (startingAt 7)
    table.inverses["decode"]? = some "encode" ∧ table.inverse (.const "decode") = some (.const "E") ∧
      table.inverse (.const "not") = some (.const "N") ∧
      table.after (.declareInverse "decode" "encode") = table ∧
      table.after (.define "encode" (.const "X")) = table := by
  intro calls table
  obtain ⟨-, hsymm, hinverse, -, -, -, hrefused⟩ := inverses_partial_involution 7 calls
  have hencode : table.inverses["encode"]? = some "decode" := by decide +kernel
  have hnot : table.inverses["not"]? = some "not" := by decide +kernel
  obtain ⟨s, -, hs, -, -, hback⟩ := hinverse "encode" "decode" hencode
  obtain ⟨-, t, -, ht, hself, -⟩ := hinverse "not" "not" hnot
  have hE : table.lookup "encode" = some (.const "E") := by decide +kernel
  have hN : table.lookup "not" = some (.const "N") := by decide +kernel
  exact ⟨(hsymm "encode" "decode").mp hencode, hback.trans (hs.symm.trans hE),
    hself.trans (ht.symm.trans hN), hrefused _ (by decide +kernel), hrefused _ (by decide +kernel)⟩

end IndexedLambda.NameTable
