import IndexedLambda.Proofs.Term.Contraction
/-!
# Binding, then feeding, is substitution by name

An abstraction that was made by binding names takes its arguments one at a time. Each step raises an
argument, replaces one binder and lowers the rest, over a body whose free occurrences have already been
pushed past all binders. Once all arguments are in, the result is the original term with the arguments
in the place of the names, in one walk that no binder captures (`Term.substituteNames`).

The steps are followed by `Term.feeding`: the rewriting of the original term that the body is after some
of the arguments have been handed over. It starts as binding (`feeding_start`), it ends as substitution
(`feeding_end`), and one step of the abstraction is one step of it (`instantiate_feeding`).
-/

namespace IndexedLambda.Term

/-- The argument that goes with the last of the names that is `x`. -/
def lastArgument? : List String → List Term → String → Option Term
  | y :: names, a :: args, x => (lastArgument? names args x).or (if y = x then some a else none)
  | _, _, _ => none

/-- Under `j` binders: a bound occurrence stays, a named one becomes the argument with its free
occurrences raised, an unassigned one gets the first free depth, any other stays. -/
def substituting (argument? : String → Option Term) (j : Nat) (v : Variable) : Term :=
  if v.depth ≠ 0 ∧ v.depth ≤ j then .var v
  else
    match argument? v.name with
    | some a => a.raise j
    | none => if v.depth = 0 then .var ⟨v.name, j + 1⟩ else .var v

/-- All arguments at once in the place of the names. -/
def substituteNames (t : Term) (names : List String) (args : List Term) : Term :=
  t.rewrite (substituting (lastArgument? names args)) 0

/-- The term is an abstraction that takes the arguments one at a time, each in one step, and this is
what is left. -/
inductive ContractsTo : Term → List Term → Term → Prop
  | done (t : Term) : ContractsTo t [] t
  | step {binders : List Variable} {body arg t u : Term} {args : List Term} {flag : Bool} :
      contract binders body arg = .ok (t, flag) → ContractsTo t args u →
      ContractsTo (.abs binders body) (arg :: args) u

theorem ContractsTo.eq_of_nil {t u : Term} (h : ContractsTo t [] u) : u = t := by
  cases h
  rfl

/-! ## The body between two steps -/

/-- The occurrence while `names` still wait for their arguments and `known?` gives those of the names
before them. -/
def feeding (names : List String) (known? : String → Option Term) (j : Nat) (v : Variable) : Term :=
  if v.depth ≠ 0 ∧ v.depth ≤ j then .var v
  else
    match binderDepth? v.name names with
    | some depth => .var ⟨v.name, j + depth⟩
    | none =>
      match known? v.name with
      | some a => a.raise (names.length + j)
      | none =>
        if v.depth = 0 then .var ⟨v.name, j + names.length + 1⟩
        else .var ⟨v.name, v.depth + names.length⟩

theorem feeding_start (names : List String) (t : Term) :
    t.captured names = t.rewrite (feeding names fun _ => none) 0 := by
  unfold captured
  congr 1
  funext j v
  unfold feeding Variable.captured
  split
  · rfl
  · cases binderDepth? v.name names with
    | some depth => rfl
    | none =>
        dsimp only
        split <;> rfl

theorem feeding_end (known? : String → Option Term) : feeding [] known? = substituting known? := by
  funext j v
  unfold feeding substituting binderDepth?
  simp only [List.length_nil, Nat.add_zero, Nat.zero_add]

/-- The arguments known after one more has been handed over: the new one hides an older one. -/
def handOver (x : String) (a : Term) (known? : String → Option Term) (y : String) : Option Term :=
  if x = y then some a else known? y

theorem instantiate_feeding (t arg : Term) (x : String) (names : List String)
    (known? : String → Option Term) :
    (t.rewrite (feeding (x :: names) known?) 0).instantiate names.length arg =
      t.rewrite (feeding names (handOver x arg known?)) 0 := by
  unfold instantiate
  rw [rewrite_rewrite]
  congr 1
  funext j v
  unfold feeding
  by_cases hbound : v.depth ≠ 0 ∧ v.depth ≤ j
  · rw [if_pos hbound, if_pos hbound, rewrite_var, instantiating_of_lt (by omega)]
  · rw [if_neg hbound, if_neg hbound, binderDepth?]
    cases hdepth : binderDepth? v.name names with
    | some depth =>
        -- a later name of the same spelling keeps the occurrence
        have hle := (binderDepth?_eq_some hdepth).2.1
        simp only [Option.some_or, rewrite_var]
        exact instantiating_of_lt (by dsimp only; omega)
    | none =>
        rw [Option.none_or]
        unfold handOver
        by_cases hx : x = v.name
        · simp only [if_pos hx, rewrite_var]
          unfold instantiating
          rw [if_pos (by dsimp only; omega)]
        · simp only [if_neg hx]
          cases known? v.name with
          | some a =>
              exact rewrite_raise_past (fun _ _ => instantiating_of_lt)
                (fun _ _ => instantiating_of_gt) j a
          | none =>
              dsimp only
              split
              · rw [rewrite_var, instantiating_of_gt (by simp only [List.length_cons]; omega)]
                rfl
              · rw [rewrite_var, instantiating_of_gt (by simp only [List.length_cons]; omega)]
                rfl

/-- Whatever the steps give is the substitution. -/
theorem ContractsTo.eq_rewrite {t u : Term} {names : List String} {args : List Term}
    {known? : String → Option Term} (hne : names ≠ []) (hlength : args.length = names.length)
    (hf : (Term.abs (numbered names) (t.rewrite (feeding names known?) 0)).Respects .sound [])
    (hargs : ∀ a ∈ args, a.Respects .sound [])
    (h : ContractsTo (.abs (numbered names) (t.rewrite (feeding names known?) 0)) args u) :
    u = t.rewrite (substituting fun x => (lastArgument? names args x).or (known? x)) 0 := by
  induction names generalizing args known? with
  | nil => exact absurd rfl hne
  | cons x names ih =>
      cases h with
      | done => cases hlength
      | step hstep hrest =>
          rename_i arg _ args _
          have hknown : (fun y => (lastArgument? (x :: names) (arg :: args) y).or (known? y)) =
              fun y => (lastArgument? names args y).or (handOver x arg known? y) := by
            funext y
            rw [lastArgument?, handOver, Option.or_assoc]
            by_cases hy : x = y
            · rw [if_pos hy, if_pos hy, Option.some_or]
            · rw [if_neg hy, if_neg hy, Option.none_or]
          have hresult := hf.instantiate Discipline.sound_portable (hargs arg (by simp))
          obtain ⟨rfl, -⟩ := contract_eq_ok hf hstep
          rw [length_numbered, instantiate_feeding] at hrest hresult
          rw [hknown]
          cases names with
          | nil =>
              obtain rfl : args = [] := List.length_eq_zero_iff.mp (Nat.succ.inj hlength)
              rw [hrest.eq_of_nil, feeding_end]
              rfl
          | cons y names =>
              exact ih (by simp) (Nat.succ.inj hlength) hresult
                (fun a ha => hargs a (by simp [ha])) hrest

/-! ## Room for all depths

A step raises its argument at every abstraction of the body, also at those of arguments that went in
before. The occurrences it replaces are those of the original term, so depths do not add up over the
steps: they stay below the sum of what one argument and the original term bring. -/

end IndexedLambda.Term

namespace IndexedLambda

/-- An occurrence that points to one of the `n` binders just outside the term lies under at most
`nesting` binders. -/
def Discipline.reaching (n nesting : Nat) : Discipline where
  occurrence scope v := scope.length < v.depth → v.depth ≤ scope.length + n → scope.length ≤ nesting
  binders _ _ := True
  arguments _ _ := True
  definitions _ := True

/-- The body of an abstraction over `n` binders, made of a term nested `outer` deep and of arguments
nested `inner` deep. -/
def Discipline.roomy (n outer inner : Nat) : Discipline :=
  (Discipline.within wordRange (outer + inner)).and (.reaching n outer)

namespace Variable

theorem capture_exactly {names : List String} {j : Nat} {v : Variable}
    (hdepth : v.depth + names.length < wordRange) (hj : j + names.length + 1 < wordRange) :
    v.capture names j = .ok (v.captured names j) := by
  unfold Variable.capture Variable.captured
  split
  · rfl
  · cases h : binderDepth? v.name names with
    | some depth =>
        have hle := (binderDepth?_eq_some h).2.1
        dsimp only
        rw [addWord_exactly (by omega)]
        rfl
    | none =>
        dsimp only
        split
        · rw [addWord_exactly (by omega)]
          show (addWord (j + names.length) 1 >>= _) = _
          rw [addWord_exactly hj]
          rfl
        · rw [addWord_exactly hdepth]
          rfl

theorem captured_roomy {names inner : List String} {v : Variable} {outer inner' : Nat}
    (hdepth : v.depth + names.length < wordRange) (hinner : inner.length ≤ outer)
    (hroom : names.length + outer + inner' < signedRange) :
    (Discipline.roomy names.length outer inner').occurrence inner (v.captured names inner.length) := by
  have hwords : signedRange + signedRange = wordRange := rfl
  refine ⟨⟨?_, by omega⟩, fun _ _ => hinner⟩
  unfold Variable.captured
  split
  · omega
  · cases h : binderDepth? v.name names with
    | some depth =>
        have hle := (binderDepth?_eq_some h).2.1
        dsimp only
        omega
    | none =>
        dsimp only
        split
        · dsimp only; omega
        · dsimp only; omega

end Variable

namespace Term

variable {outer inner : Nat}

theorem Respects.capture_exactly {t : Term} {names : List String} {depth : Nat}
    (ht : t.Respects (.within depth outer) []) (hdepth : depth + names.length ≤ wordRange)
    (hroom : names.length + outer < signedRange) :
    t.capture names 0 = .ok (t.captured names) := by
  have hwords : signedRange + signedRange = wordRange := rfl
  refine traverse_agrees .exactly (fun j => j) _ (fun inner vs (hvs : _ ≤ outer) => ?_)
    (fun inner v hv => ?_) ht
  · rw [List.append_nil] at hvs
    exact addWord_exactly (by omega)
  · obtain ⟨hv, hinner⟩ := hv
    rw [List.append_nil] at hinner
    exact Verdict.exactly.bind (Variable.capture_exactly (by omega) (by omega))
      (Verdict.exactly.ok _)

theorem Respects.raise_roomy {a : Term} {n m : Nat} {scope : List String}
    (ha : a.Respects (.within signedRange inner) []) (hm : signedRange + m ≤ wordRange)
    (hscope : scope.length ≤ outer) (hn : n + scope.length ≤ m) :
    (a.raise m).Respects (.roomy n outer inner) scope := by
  refine Respects.rewrite ha ⟨fun i v hv => ?_, fun i vs (hvs : _ ≤ inner) => ⟨?_, trivial⟩,
    fun _ _ _ => ⟨trivial, trivial⟩, fun _ _ => ⟨trivial, trivial⟩⟩
  · obtain ⟨hdepth, hi⟩ := hv
    rw [List.append_nil] at hi
    rw [respects_var, Nat.zero_add]
    refine ⟨⟨?_, by rw [List.length_append]; omega⟩, fun hlt hle => ?_⟩
    · have := v.depth_raiseAbove_le i.length m
      omega
    · -- bound in the argument, or raised past the binders
      rw [List.length_append] at hlt hle
      by_cases hbound : v.depth ≤ i.length
      · rw [Variable.raiseAbove_of_le hbound] at hlt
        omega
      · rw [Variable.raiseAbove_of_lt (by omega)] at hle
        dsimp only at hle
        omega
  · rw [List.append_nil] at hvs
    show (i ++ scope).length + vs.length ≤ outer + inner
    rw [List.length_append]
    omega

theorem Respects.instantiate_roomy {body arg : Term} {n : Nat}
    (hbody : body.Respects (.roomy (n + 1) outer inner) [])
    (harg : arg.Respects (.within signedRange inner) [])
    (hroom : n + outer + inner < signedRange) :
    (body.instantiate n arg).Respects (.roomy n outer inner) [] := by
  have hwords : signedRange + signedRange = wordRange := rfl
  refine Respects.rewrite hbody ⟨fun scope v hv => ?_, fun _ _ h => h, fun _ _ h => h, fun _ h => h⟩
  rw [List.append_nil] at hv ⊢
  obtain ⟨⟨hdepth, hscope⟩, hreach⟩ := hv
  unfold instantiating
  split
  · have := hreach (by omega) (by omega)
    exact harg.raise_roomy (by omega) this (by omega)
  · split
    · refine ⟨⟨by dsimp only; omega, hscope⟩, fun _ hle => ?_⟩
      dsimp only at hle
      omega
    · exact ⟨⟨hdepth, hscope⟩, fun hlt hle => hreach hlt (by omega)⟩

theorem contract_exactly {x : Variable} {rest : List Variable} {body arg : Term}
    {scope : List String} (hf : (Term.abs (x :: rest) body).Respects .wellFormed scope)
    (hbody : body.Respects (.roomy (rest.length + 1) outer inner) [])
    (harg : arg.Respects (.within signedRange inner) [])
    (hroom : rest.length + 1 + outer + inner < signedRange) :
    ∃ flag, contract (x :: rest) body arg =
      .ok (wrap rest (body.instantiate rest.length arg), flag) := by
  have hwords : signedRange + signedRange = wordRange := rfl
  have hx := numbered_head (respects_abs.mp hf).1
  obtain ⟨hwithin, hreaching⟩ := respects_and.mp hbody
  have hraise : arg.shift (.up (rest.length + 1)) = .ok (arg.raise (rest.length + 1)) :=
    harg.shift_up_exactly (by omega) (by omega) (by omega)
  have hreplace : body.replace x (arg.raise (rest.length + 1)) =
      .ok (body.rewrite (replacing x (arg.raise (rest.length + 1))) 0) :=
    hwithin.replace_exactly (harg.raise_within _) (by omega) (by omega) (by omega) (by omega)
  have hinserted : (body.rewrite (replacing x (arg.raise (rest.length + 1))) 0).Respects
      (.within wordRange (outer + inner)) [] := by
    refine Respects.rewrite hbody ⟨fun i v hv => ?_, fun _ _ h => h.1, fun _ _ h => h.1,
      fun _ h => h.1⟩
    rw [List.append_nil] at hv ⊢
    unfold replacing
    split
    case isTrue hvx =>
      have hdepth : v.depth = rest.length + 1 + i.length := by
        rw [hvx, Variable.raiseAbove_of_lt (by omega), hx]
      have := hv.2 (by omega) (by omega)
      rw [raise_raise]
      exact (respects_and.mp (harg.raise_roomy (n := 0) (by omega) this (by omega))).1
    case isFalse => exact hv.1
  have hlower : (body.rewrite (replacing x (arg.raise (rest.length + 1))) 0).shift
      ⟨rest.length + 1, -1⟩ = .ok (body.instantiate rest.length arg) := by
    rw [← lower_replacing hf]
    exact hinserted.shift_lower_exactly (n := 1) (Nat.le_refl _) (by omega) (by omega)
  refine ⟨exposes body (body.rewrite (replacing x (arg.raise (rest.length + 1))) 0), ?_⟩
  unfold contract
  rw [List.length_cons, hraise]
  show (body.replace x (arg.raise (rest.length + 1)) >>= _) = _
  rw [hreplace]
  show (Term.shift _ ⟨rest.length + 1, -1⟩ >>= _) = _
  rw [hlower]
  rfl

/-- With room for all depths every step gives something. -/
theorem exists_contractsTo {t : Term} {names : List String} {args : List Term}
    {known? : String → Option Term} (hne : names ≠ []) (hlength : args.length = names.length)
    (hf : (Term.abs (numbered names) (t.rewrite (feeding names known?) 0)).Respects .sound [])
    (hbody : (t.rewrite (feeding names known?) 0).Respects (.roomy names.length outer inner) [])
    (hargs : ∀ a ∈ args, a.Respects .sound [] ∧ a.Respects (.within signedRange inner) [])
    (hroom : names.length + outer + inner < signedRange) :
    ∃ u, ContractsTo (.abs (numbered names) (t.rewrite (feeding names known?) 0)) args u := by
  induction names generalizing args known? with
  | nil => exact absurd rfl hne
  | cons x names ih =>
      cases args with
      | nil => cases hlength
      | cons arg args =>
          obtain ⟨hsound, hwithin⟩ := hargs arg (by simp)
          have hroom' : names.length + 1 + outer + inner < signedRange := hroom
          rw [numbered] at hf ⊢
          obtain ⟨flag, hstep⟩ := contract_exactly (respects_and.mp hf).1
            (by rw [length_numbered]; exact hbody) hwithin (by rw [length_numbered]; exact hroom')
          have hresult := hf.instantiate Discipline.sound_portable hsound
          have hbody' := Respects.instantiate_roomy (n := names.length) hbody hwithin (by omega)
          rw [length_numbered, instantiate_feeding] at hstep hresult
          rw [instantiate_feeding] at hbody'
          -- the last step leaves a bare body, the others leave an abstraction again
          cases names with
          | nil =>
              obtain rfl : args = [] := List.length_eq_zero_iff.mp (Nat.succ.inj hlength)
              exact ⟨_, .step hstep (.done _)⟩
          | cons y names =>
              obtain ⟨u, hu⟩ := ih (by simp) (Nat.succ.inj hlength) hresult hbody'
                (fun a ha => hargs a (by simp [ha])) (by omega)
              exact ⟨u, .step hstep hu⟩

/-! ## Binding and feeding -/

theorem WellFormed.captured_sound {t : Term} {names : List String} (ht : t.WellFormed)
    (hsize : t.Addressable) (hne : names ≠ []) (hnames : names.length < signedRange) :
    (Term.abs (numbered names) (t.captured names)).Respects .sound [] := by
  refine respects_and.mpr ⟨(ht.captured hne).1, respects_abs.mpr ⟨?_, ?_⟩⟩
  · show (numbered names).length < signedRange
    rwa [length_numbered]
  · exact Respects.rewrite hsize ⟨fun _ _ _ => trivial, fun _ _ h => h, fun _ _ h => h, fun _ h => h⟩

theorem Respects.captured_roomy {t : Term} {names : List String} {depth : Nat}
    (ht : t.Respects (.within depth outer) []) (hdepth : depth + names.length ≤ wordRange)
    (hroom : names.length + outer + inner < signedRange) :
    (t.captured names).Respects (.roomy names.length outer inner) [] := by
  refine Respects.rewrite ht ⟨fun i v hv => ?_, fun i vs (hvs : _ ≤ outer) => ⟨?_, trivial⟩,
    fun _ _ _ => ⟨trivial, trivial⟩, fun _ _ => ⟨trivial, trivial⟩⟩
  · rw [List.append_nil] at hv ⊢
    have hv' : v.depth + names.length < wordRange :=
      Nat.lt_of_lt_of_le (Nat.add_lt_add_right hv.1 _) hdepth
    exact v.captured_roomy hv' hv.2 hroom
  · exact Nat.le_trans hvs (Nat.le_add_right _ _)

theorem Respects.addressable_of_within {t : Term} {depth nesting : Nat}
    (ht : t.Respects (.within depth nesting) []) (h : nesting < signedRange) : t.Addressable :=
  Respects.imp ht ⟨fun _ _ _ => trivial, fun inner vs (hvs : _ ≤ nesting) => by
    show vs.length < signedRange
    omega, fun _ _ h => h, fun _ h => h⟩

section Feeding

variable {t : Term} {names : List String} {args : List Term} (hnames : names ≠ [])
  (hlength : args.length = names.length) (ht : t.WellFormed) (hargs : ∀ a ∈ args, a.WellFormed)

include hnames hlength ht hargs

theorem eq_substituteNames {f u : Term} (hcount : names.length < signedRange) (hsize : t.Addressable)
    (hargsize : ∀ a ∈ args, a.Addressable) (hbind : t.bind names = .ok f) (hu : ContractsTo f args u) :
    u = t.substituteNames names args := by
  have hsound := ht.captured_sound hsize hnames hcount
  have hargsound := fun a ha => respects_and.mpr ⟨hargs a ha, hargsize a ha⟩
  obtain ⟨-, body, hbody, rfl⟩ := bind_eq_ok_iff.mp hbind
  rw [capture_atMost names t body hbody, feeding_start] at hu
  rw [feeding_start] at hsound
  rw [hu.eq_rewrite hnames hlength hsound hargsound]
  simp only [Option.or_none]
  rfl

/-- The depths of the body have to leave room for the binders only. -/
theorem exists_bind_contractsTo_within {depth outer inner : Nat}
    (htroom : t.Respects (.within depth outer) []) (hdepth : depth + names.length ≤ wordRange)
    (hargsroom : ∀ a ∈ args, a.Respects (.within signedRange inner) [])
    (hroom : names.length + outer + inner < signedRange) :
    ∃ f u, t.bind names = .ok f ∧ ContractsTo f args u := by
  have hsound := ht.captured_sound (htroom.addressable_of_within (by omega)) hnames (by omega)
  have hbody := htroom.captured_roomy hdepth hroom
  have hargsboth : ∀ a ∈ args, a.Respects .sound [] ∧ a.Respects (.within signedRange inner) [] :=
    fun a ha => ⟨respects_and.mpr
      ⟨hargs a ha, (hargsroom a ha).addressable_of_within (by omega)⟩, hargsroom a ha⟩
  have hbind : t.bind names = .ok (.abs (numbered names) (t.captured names)) :=
    bind_eq_ok_iff.mpr ⟨hnames, _, htroom.capture_exactly hdepth (by omega), rfl⟩
  rw [feeding_start] at hsound hbody hbind
  obtain ⟨u, hu⟩ := exists_contractsTo hnames hlength hsound hbody hargsboth hroom
  exact ⟨_, u, hbind, hu⟩

theorem exists_bind_contractsTo {outer inner : Nat} (htroom : t.Respects (.within signedRange outer) [])
    (hargsroom : ∀ a ∈ args, a.Respects (.within signedRange inner) [])
    (hroom : names.length + outer + inner < signedRange) :
    ∃ f u, t.bind names = .ok f ∧ ContractsTo f args u := by
  have hwords : signedRange + signedRange = wordRange := rfl
  exact exists_bind_contractsTo_within hnames hlength ht hargs htroom (by omega) hargsroom hroom

end Feeding

/-- **Bound names contract to a substitution.** Binding names in a well-formed term and handing over
one argument for each, in single steps, gives the simultaneous substitution of the arguments for the
names, the last of equal names deciding. With depths below `2 ^ 63`, and fewer binders than that around
every place of the result, no step faults. -/
theorem bind_contracts_to_substitution {t : Term} {names : List String} {args : List Term}
    (hnames : names ≠ []) (hlength : args.length = names.length) (ht : t.WellFormed)
    (hargs : ∀ a ∈ args, a.WellFormed) :
    (names.length < signedRange → t.Addressable → (∀ a ∈ args, a.Addressable) →
      ∀ f u, t.bind names = .ok f → ContractsTo f args u → u = t.substituteNames names args) ∧
    (∀ outer inner, t.Respects (.within signedRange outer) [] →
      (∀ a ∈ args, a.Respects (.within signedRange inner) []) →
      names.length + outer + inner < signedRange →
      ∃ f, t.bind names = .ok f ∧ ContractsTo f args (t.substituteNames names args)) := by
  refine ⟨fun hcount hsize hargsize f u hbind hu =>
    eq_substituteNames hnames hlength ht hargs hcount hsize hargsize hbind hu, ?_⟩
  intro outer inner htroom hargsroom hroom
  obtain ⟨f, u, hbind, hu⟩ := exists_bind_contractsTo hnames hlength ht hargs htroom hargsroom hroom
  obtain rfl := eq_substituteNames hnames hlength ht hargs (by omega)
    (htroom.addressable_of_within (by omega))
    (fun a ha => (hargsroom a ha).addressable_of_within (by omega)) hbind hu
  exact ⟨f, hbind, hu⟩

/-- Two binders of one name, an inner binder, an argument that mentions a name still to come: the last
`x` decides, the inner `y` stays, and the `z` of the second argument is not taken for the binder `z`. -/
theorem bind_contracts_to_substitution_of_repeated_name :
    let t : Term := .app (.abs [⟨"y", 1⟩] (.app (.var ⟨"y", 1⟩) (.var ⟨"x", 2⟩)))
      (.list [.var ⟨"x", 0⟩, .var ⟨"z", 0⟩, .var ⟨"w", 0⟩])
    let args : List Term := [.const "first", .var ⟨"z", 3⟩, .const "last"]
    let names := ["x", "x", "z"]
    ∃ f, t.bind names = .ok f ∧ ContractsTo f args
      (.app (.abs [⟨"y", 1⟩] (.app (.var ⟨"y", 1⟩) (.var ⟨"z", 4⟩)))
        (.list [.var ⟨"z", 3⟩, .const "last", .var ⟨"w", 1⟩])) := by
  intro t args names
  have ht : t.WellFormed := by decide
  have hargs : ∀ a ∈ args, a.WellFormed := by decide
  have hroom : t.Respects (.within signedRange 1) [] := by decide
  have hargsroom : ∀ a ∈ args, a.Respects (.within signedRange 0) [] := by decide
  exact (bind_contracts_to_substitution (by decide) rfl ht hargs).2 1 0 hroom hargsroom (by decide)

end Term

end IndexedLambda
