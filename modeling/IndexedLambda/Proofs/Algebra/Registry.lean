import Mathlib.Data.List.Nodup
import IndexedLambda.Algebra.Rule
import IndexedLambda.Proofs.Sequencing
/-!
# The registry of rules

The number of a rule is its place in the table. Looking a name up gives the first place with that name,
so the two lookups are inverse as long as no name occurs twice. The built-in names are distinct, and a
registration appends a rule only if its name is new (`RuleTable.Distinct.registered`).

A registration appends or does nothing, so the rules of a table are a prefix of those of every later one
(`RuleTable.prefix_run`). A number that was given out therefore keeps its name and its rule.
-/

namespace IndexedLambda.RuleTable

variable {table table' : RuleTable} {name : String} {id : Nat}

/-! ## One registration -/

theorem idOf?_eq_none_iff : table.idOf? name = none ↔ ∀ entry ∈ table.rules, entry.1 ≠ name := by
  simp [idOf?, List.findIdx?_eq_none_iff]

theorem register_of_new (h : table.idOf? name = none) (rule : Rule) :
    register name rule table = .ok table.rules.length ⟨table.rules ++ [(name, rule)]⟩ := by
  unfold register
  rw [Stateful.get_then, h]
  rfl

theorem register_of_known (h : table.idOf? name = some id) (rule : Rule) :
    register name rule table = .error (.ruleAlreadyRegistered name) table := by
  unfold register
  rw [Stateful.get_then, h]
  rfl

/-- A registration that is accepted appends a rule with a new name. -/
theorem register_eq_ok_iff {rule : Rule} : register name rule table = .ok id table' ↔
    table.idOf? name = none ∧ id = table.rules.length ∧ table' = ⟨table.rules ++ [(name, rule)]⟩ := by
  cases h : table.idOf? name with
  | none =>
      rw [register_of_new h]
      simp [eq_comm]
  | some known =>
      rw [register_of_known h]
      simp

/-- A registration that is refused changes nothing. -/
theorem register_eq_error_iff {rule : Rule} {e : AlgebraError} :
    register name rule table = .error e table' ↔
      table.idOf? name ≠ none ∧ e = .ruleAlreadyRegistered name ∧ table' = table := by
  cases h : table.idOf? name with
  | none =>
      rw [register_of_new h]
      simp
  | some known =>
      rw [register_of_known h]
      simp [eq_comm]

/-- The table that a registration leaves behind. -/
def registered (table : RuleTable) (entry : String × Rule) : RuleTable :=
  endOf (register entry.1 entry.2 table)

theorem registered_cases (table : RuleTable) (entry : String × Rule) :
    (table.idOf? entry.1 = none ∧ table.registered entry = ⟨table.rules ++ [entry]⟩) ∨
      table.registered entry = table := by
  unfold registered
  cases h : register entry.1 entry.2 table with
  | ok id table' =>
      obtain ⟨hnew, -, rfl⟩ := register_eq_ok_iff.mp h
      exact .inl ⟨hnew, rfl⟩
  | error e table' =>
      obtain ⟨-, -, rfl⟩ := register_eq_error_iff.mp h
      exact .inr rfl

/-! ## Numbers are kept -/

theorem prefix_registered (table : RuleTable) (entry : String × Rule) :
    table.rules <+: (table.registered entry).rules := by
  rcases table.registered_cases entry with ⟨-, h⟩ | h
  · exact ⟨[entry], by rw [h]⟩
  · exact ⟨[], by rw [h, List.append_nil]⟩

theorem prefix_run (table : RuleTable) (entries : List (String × Rule)) :
    table.rules <+: (entries.foldl registered table).rules := by
  refine List.foldlRecOn (motive := fun current => table.rules <+: current.rules) entries registered
    (List.prefix_refl table.rules) ?_
  intro current h entry _
  exact h.trans (current.prefix_registered entry)

theorem getElem?_run (table : RuleTable) (entries : List (String × Rule))
    (hid : id < table.rules.length) :
    (entries.foldl registered table).rules[id]? = table.rules[id]? := by
  obtain ⟨further, hfurther⟩ := table.prefix_run entries
  rw [← hfurther, List.getElem?_append_left hid]

/-! ## Names are distinct -/

/-- No two rules have the same name. -/
def Distinct (table : RuleTable) : Prop := (table.rules.map Prod.fst).Nodup

theorem distinct_builtin (ev : Evaluator) : (builtin ev).Distinct := by
  show List.Nodup ["application", "abstraction", "construction", "head-separation", "tail-separation",
    "disjunction", "expansion", "realization", "contextualization", "instantiation", "generalization"]
  decide

theorem Distinct.registered (h : table.Distinct) (entry : String × Rule) :
    (table.registered entry).Distinct := by
  rcases table.registered_cases entry with ⟨hnew, hregistered⟩ | hregistered
  · rw [hregistered]
    show ((table.rules ++ [entry]).map Prod.fst).Nodup
    rw [List.map_append, List.nodup_append]
    refine ⟨h, List.nodup_singleton _, ?_⟩
    intro x hx y hy
    obtain ⟨known, hknown, rfl⟩ := List.mem_map.mp hx
    obtain rfl := List.mem_singleton.mp hy
    exact idOf?_eq_none_iff.mp hnew known hknown
  · rw [hregistered]
    exact h

theorem Distinct.run (h : table.Distinct) (entries : List (String × Rule)) :
    (entries.foldl RuleTable.registered table).Distinct := by
  refine List.foldlRecOn entries RuleTable.registered h ?_
  intro current h entry _
  exact h.registered entry

/-- With distinct names, the two lookups are inverse. -/
theorem Distinct.idOf?_eq_some_iff (h : table.Distinct) :
    table.idOf? name = some id ↔ table.nameOf? id = some name := by
  unfold idOf? nameOf?
  rw [List.findIdx?_eq_some_iff_getElem, ← List.getElem?_map, List.getElem?_eq_some_iff]
  constructor
  · rintro ⟨hlt, hname, -⟩
    exact ⟨by simpa using hlt, by simpa using hname⟩
  · rintro ⟨hlt, hname⟩
    have hlt' : id < table.rules.length := by simpa using hlt
    refine ⟨hlt', by simpa using hname, ?_⟩
    -- an earlier rule of that name would be a second one
    intro j hj hfound
    have hsame : (table.rules.map Prod.fst)[j]? = (table.rules.map Prod.fst)[id]? := by
      rw [List.getElem?_eq_getElem hlt, hname, List.getElem?_map,
        List.getElem?_eq_getElem (Nat.lt_trans hj hlt')]
      simpa using hfound
    have hindex : j = id := (List.getElem?_inj (by rw [List.length_map]; omega) h).mp hsame
    omega

theorem apply_congr (h : table'.rules[id]? = table.rules[id]?) :
    table'.apply id = table.apply id := by
  unfold apply
  rw [h]

theorem applyNamed_of_known (h : table.idOf? name = some id) :
    table.applyNamed name = table.apply id := by
  unfold applyNamed
  rw [h]

/-- **The registry only grows.** After any registrations on the built-in rules, a name has a number
exactly if the number has the name. Whatever is registered later, a number that has been given out keeps
its name and its rule. A registration is accepted exactly if no rule has the name; then it gives the
number of rules so far and appends the rule. Otherwise it is refused, and the table stays as it is.
Running a rule by its name is running it by its number. -/
theorem registry_append_only (ev : Evaluator) (entries : List (String × Rule)) :
    let table := entries.foldl registered (builtin ev)
    (∀ name id, table.idOf? name = some id ↔ table.nameOf? id = some name) ∧
    (∀ (later : List (String × Rule)) (id : Nat), id < table.rules.length →
      (later.foldl registered table).nameOf? id = table.nameOf? id ∧
        (later.foldl registered table).rules[id]? = table.rules[id]? ∧
        (later.foldl registered table).apply id = table.apply id) ∧
    (∀ name rule, (∃ id table', register name rule table = .ok id table') ↔
      ∀ entry ∈ table.rules, entry.1 ≠ name) ∧
    (∀ name rule id table', register name rule table = .ok id table' →
      id = table.rules.length ∧ table'.rules = table.rules ++ [(name, rule)]) ∧
    (∀ name rule e table', register name rule table = .error e table' →
      e = .ruleAlreadyRegistered name ∧ table' = table) ∧
    ∀ name id, table.idOf? name = some id → table.applyNamed name = table.apply id := by
  intro table
  have hdistinct : table.Distinct := (distinct_builtin ev).run entries
  refine ⟨fun name id => hdistinct.idOf?_eq_some_iff, ?_, ?_, ?_, ?_,
    fun name id h => applyNamed_of_known h⟩
  · intro later id hid
    have hkept := table.getElem?_run later hid
    exact ⟨congrArg (Option.map Prod.fst) hkept, hkept, apply_congr hkept⟩
  · intro name rule
    rw [← idOf?_eq_none_iff]
    constructor
    · rintro ⟨id, table', hregister⟩
      exact (register_eq_ok_iff.mp hregister).1
    · intro hnew
      exact ⟨_, _, register_of_new hnew rule⟩
  · intro name rule id table' hregister
    obtain ⟨-, hid, rfl⟩ := register_eq_ok_iff.mp hregister
    exact ⟨hid, rfl⟩
  · intro name rule e table' hregister
    exact (register_eq_error_iff.mp hregister).2

/-- A rule is registered under a new name and gets the number eleven. It keeps the number when further
registrations come, of which the one with the name of a built-in rule is refused. -/
theorem registry_append_only_of_listing :
    let ev : Evaluator := ⟨fun _ _ => .fail none, 0⟩
    let listing : Rule := .unary fun m => return .list m
    let table := [("listing", listing)].foldl registered (builtin ev)
    let later := [("application", listing), ("union", Rule.expansion)].foldl registered table
    table.idOf? "listing" = some 11 ∧ later.nameOf? 11 = some "listing" ∧
      later.apply 11 = table.apply 11 ∧ table.applyNamed "listing" = table.apply 11 ∧
      later.nameOf? 12 = some "union" ∧
      ¬∃ id table', register "application" listing table = .ok id table' := by
  intro ev listing table later
  obtain ⟨hinverse, hkept, haccepted, -, -, hnamed⟩ := registry_append_only ev [("listing", listing)]
  have hlisting : table.idOf? "listing" = some 11 := (hinverse "listing" 11).mpr rfl
  obtain ⟨hname, -, happly⟩ :=
    hkept [("application", listing), ("union", Rule.expansion)] 11 (by decide)
  refine ⟨hlisting, hname, happly, hnamed "listing" 11 hlisting, rfl, ?_⟩
  intro haccept
  exact (haccepted "application" listing).mp haccept ("application", Rule.application ev)
    List.mem_cons_self rfl

end IndexedLambda.RuleTable
