import IndexedLambda.Family.Proof
import IndexedLambda.Proofs.Inference.Brackets
import IndexedLambda.Proofs.Inference.Explanation
import IndexedLambda.Proofs.Unification.Symmetry
/-!
# The tower of local definitions

`Family.letTower` proves `n` nested definitions of an identity, whose innermost body applies all of
them to `0`. It runs three loops, and each of them has one step:

* a definition is opened: it takes one type variable and one term variable, and since Γ is closed the
  type variable is generalised;
* a definition is applied: it takes two type variables, and both of them become `Int`;
* a definition is discharged: Γ loses its last entry.

So the whole context is known after every step, and the tower concludes as long as the counter has
room for its `3 * n` type variables (`Family.letTower_concludes`).
-/

namespace IndexedLambda

/-! ## Closed tables -/

namespace SymbolTable

/-- No judgment has a free type variable. -/
def Closed (table : SymbolTable) : Prop :=
  ∀ x, ∀ j ∈ table.bindings x, j.type.freeVariables = []

theorem closed_empty : empty.Closed := by
  intro x j hj
  simp at hj

theorem Closed.add {table : SymbolTable} (h : table.Closed) (x : String) {y : Ty}
    (hy : y.freeVariables = []) : (table.add x y).Closed := by
  intro z j hj
  rw [bindings_add] at hj
  split at hj
  · rcases List.mem_cons.mp hj with rfl | hj
    · exact hy
    · exact h x j hj
  · exact h z j hj

end SymbolTable

theorem Inference.environment_of_closed {s : Inference} (h : s.symbols.Closed) :
    s.environment = [] := by
  refine List.flatMap_eq_nil_iff.mpr fun j hj => ?_
  obtain ⟨x, hx⟩ := SymbolTable.exists_of_mem_judgments hj
  rw [h x j hx]
  rfl

/-! ## An identity and its call -/

namespace TypeContext

variable {c : TypeContext} {natives : InstructionSet} {n : Nat}

theorem find_var_of_unbound {v : TypeVariable} (hv : c.classes.get? v.key = none) :
    c.find (.var v) = .var v := ClassMap.find_of_next?_none hv

/-- A variable that meets something else is bound to it, unless it occurs inside or the other cannot
be written. -/
theorem unify_of_meets (hc : c.tracing = false) {a b m : Monotype} {v : TypeVariable}
    (hmeets : Meets (.var v) m (c.find a) (c.find b)) (hm : m.isVariable = false)
    (hinside : (c.resolve m).hasInside v = false) (hwritten : m.Legible) :
    unify natives (n + 1) a b c = .ok .ok (c.withType v m) := by
  have hne : ¬(c.find a).StrictEq (c.find b) := by
    rcases hmeets with ⟨hne, ⟨ha, hb⟩ | ⟨hb, ha⟩⟩
    · rw [ha, hb]
      exact fun h => hne (Monotype.strictEq_var_iff.mp h.symm)
    · rw [ha, hb]
      exact fun h => hne (Monotype.strictEq_var_iff.mp h)
  have hvariable : (c.find a).isVariable = true ∨ (c.find b).isVariable = true := by
    rcases hmeets.2 with ⟨ha, -⟩ | ⟨hb, -⟩
    · exact .inl (by rw [ha]; rfl)
    · exact .inr (by rw [hb]; rfl)
  obtain ⟨w, m', ⟨-, hw⟩, hrun⟩ := unify_of_variable natives hne hvariable
  -- the other side is no variable, so there is one way to see who meets whom
  obtain ⟨rfl, rfl⟩ : w = v ∧ m' = m := by
    obtain ⟨-, hv⟩ := hmeets
    grind [Monotype.isVariable, Monotype.asVariable]
  rcases bindUnlessInside_of_outside hinside with ⟨step, -, -, hbind⟩ | ⟨f, hf, -⟩
  · rw [hrun, hbind, noted_of_not_tracing hc]
  · exact absurd hwritten (Monotype.not_legible_of_error hf)

/-- Two function types that differ are unified part by part. -/
theorem unify_arrow (hc : c.tracing = false) {a₀ b₀ a₁ b₁ : Monotype} {c₁ d : TypeContext}
    (hne : ¬(Monotype.arrow a₀ b₀).StrictEq (.arrow a₁ b₁)) (ha : unify natives n a₀ a₁ c = .ok .ok c₁)
    (hb : unify natives n b₀ b₁ c₁ = .ok .ok d) :
    unify natives (n + 1) (.arrow a₀ b₀) (.arrow a₁ b₁) c = .ok .ok d := by
  have hquiet (m : Monotype) : c.Shows m := fun h => absurd h (by rw [hc]; exact Bool.false_ne_true)
  obtain ⟨detail, hparts⟩ := unify_rigid_of_fit (c := c) natives hne rfl rfl rfl
  obtain ⟨step, hrecord⟩ := record_of_shows .decompose detail (hquiet (.arrow a₀ b₀))
    (hquiet (.arrow a₁ b₁))
  rw [hparts, Stateful.bind_of_ok hrecord, noted_of_not_tracing hc]
  refine andThen_eq_ok.mpr ⟨d, ?_, rfl⟩
  exact andThen_eq_ok.mpr ⟨c₁, ha, andThen_eq_ok.mpr ⟨d, hb, rfl⟩⟩

/-- The call of an identity `a -> a` with a constant type binds `a` and the result to that type. -/
theorem unify_identity (natives : InstructionSet) (n : Nat) (hc : c.tracing = false)
    {a b : TypeVariable} (hab : a ≠ b) (ha : c.classes.get? a.key = none)
    (hb : c.classes.get? b.key = none) (name : String) :
    unify natives (n + 2) (.arrow (.var a) (.var a)) (.arrow (.plain name) (.var b)) c =
      .ok .ok ((c.withType a (.plain name)).withType b (.plain name)) := by
  have hfinda : (c.withType a (.plain name)).find (.var a) = .plain name :=
    ClassMap.find_var_of_some ((ClassMap.get?_bind _ _ _ _).trans (if_pos rfl)) rfl
  have hfindb : (c.withType a (.plain name)).find (.var b) = .var b := by
    refine find_var_of_unbound ((ClassMap.get?_bind _ _ _ _).trans ?_)
    rwa [if_neg fun h => hab (TypeVariable.key_injective h)]
  have hrigid : ∀ v, Monotype.plain name ≠ .var v := by simp [Monotype.plain]
  have hinside : ∀ (d : TypeContext) v, (d.resolve (.plain name)).hasInside v = false := by
    intro d v
    have hresolve : d.resolve (.plain name) = .plain name := ClassMap.resolve_eq_subst _ _ _
    rw [hresolve]
    rfl
  have hne : ¬(Monotype.arrow (.var a) (.var a)).StrictEq (.arrow (.plain name) (.var b)) := by
    intro h
    have hmem : a ∈ (Monotype.arrow (.plain name) (.var b)).occurrences :=
      h.mem_occurrences.mp (by simp [Monotype.arrow])
    simp [Monotype.arrow, Monotype.plain, hab] at hmem
  have hdomain : unify natives (n + 1) (.var a) (.plain name) c =
      .ok .ok (c.withType a (.plain name)) := by
    refine unify_of_meets hc ⟨hrigid a, .inl ⟨?_, ?_⟩⟩ rfl (hinside _ _) Monotype.legible_const
    · exact find_var_of_unbound ha
    · exact ClassMap.find_rigid rfl
  have hrange : unify natives (n + 1) (.var a) (.var b) (c.withType a (.plain name)) =
      .ok .ok ((c.withType a (.plain name)).withType b (.plain name)) :=
    unify_of_meets (c := c.withType a _) hc ⟨hrigid b, .inr ⟨hfindb, hfinda⟩⟩ rfl (hinside _ _)
      Monotype.legible_const
  exact unify_arrow hc hne hdomain hrange

end TypeContext

/-! ## Rules in a quiet context -/

namespace Family

/-- The type variable with a given number. -/
def typeVar (k : Nat) : TypeVariable := (TypeContext.startingAt 0 0).numbered k

/-- `∀ v . v -> v`, where `v` has the given number. -/
def identityType (k : Nat) : Ty :=
  .poly ⟨[typeVar k], .mono (.arrow (.var (typeVar k)) (.var (typeVar k)))⟩

/-- `λ v . v`, where `v` has the given number. -/
def identity (k : Nat) : Term := .abs [⟨s!"$e{k}", 1⟩] (.var ⟨s!"$e{k}", 1⟩)

theorem typeVar_inj {i k : Nat} (h : (typeVar i).key = (typeVar k).key) : i = k :=
  TypeContext.numbered_inj (TypeVariable.key_injective h)

theorem freeVariables_arrow_self (v : TypeVariable) :
    (Monotype.arrow (.var v) (.var v)).freeVariables = [v] := by
  show [v, v].eraseDups = [v]
  simp [List.eraseDups_cons]

theorem freeVariables_identityType (k : Nat) : (identityType k).freeVariables = [] := by
  show ((Monotype.arrow (.var (typeVar k)) (.var (typeVar k))).freeVariables.filter fun v =>
    !([typeVar k].contains v)) = []
  rw [freeVariables_arrow_self]
  simp

end Family

namespace Inference

open Family

/-- A context without reports and records. -/
def quiet (symbols : SymbolTable) (classes : ClassMap Monotype) (types terms : Nat) : Inference :=
  { startingAt types terms with
    symbols, types := { TypeContext.startingAt types 0 with classes } }

variable {Γ : SymbolTable} {c : ClassMap Monotype} {i i' j : Nat}

theorem fresh_quiet (h : i + 1 < counterRange) :
    onTypes TypeContext.fresh (quiet Γ c i j) = .ok (.var (typeVar i)) (quiet Γ c (i + 1) j) :=
  (typeSupply.run _).trans (if_pos h)

theorem remove_quiet (hΓ : Γ.Proper) (x : String) (y : Ty) :
    remove x (quiet (Γ.add x y) c i j) = .ok ((Γ.add x y).contains x) (quiet Γ c i j) := by
  show EStateM.Result.ok ((Γ.add x y).contains x) (quiet ((Γ.add x y).remove x) c i j) = _
  rw [hΓ.remove_add]

theorem instantiate_identityType (k : Nat) (h : i + 1 < counterRange) :
    instantiate (identityType k) (quiet Γ c i j) =
      .ok (.arrow (.var (typeVar i)) (.var (typeVar i))) (quiet Γ c (i + 1) j) := by
  have hbinders : [typeVar k].filter (fun v => !v.isWildcard) = [typeVar k] := by
    have hk : (typeVar k).isWildcard = false := isWildcard_dollar k 0
    simp [hk]
  have hfresh : ([typeVar k].mapM fun _ => onTypes TypeContext.fresh) (quiet Γ c i j) =
      .ok [.var (typeVar i)] (quiet Γ c (i + 1) j) := by
    rw [List.mapM_cons, Stateful.bind_of_ok (fresh_quiet h)]
    rfl
  have hopened : (Monotype.arrow (.var (typeVar k)) (.var (typeVar k))).subst
      (.assign [(typeVar k, .var (typeVar i))]) = .arrow (.var (typeVar i)) (.var (typeVar i)) := by
    simp [Monotype.subst_arrow, Monotype.assign]
  simp only [instantiate, identityType, Ty.toPolytype, hbinders]
  rw [Stateful.bind_of_ok hfresh]
  exact congrArg (EStateM.Result.ok · _) hopened

theorem generalize_identity (hΓ : Γ.Closed) (k : Nat) :
    ((quiet Γ .empty i j).generalize (.arrow (.var (typeVar k)) (.var (typeVar k)))).toType =
      identityType k := by
  have hresolve : (quiet Γ .empty i j).types.resolve (.arrow (.var (typeVar k)) (.var (typeVar k))) =
      .arrow (.var (typeVar k)) (.var (typeVar k)) := by
    have hvar : ClassMap.empty.resolve .empty (.var (typeVar k)) = .var (typeVar k) :=
      ClassMap.resolve_var_of_none _ (ClassMap.get?_empty _)
    refine (ClassMap.resolve_eq_subst _ _ _).trans ?_
    exact congrArg (fun m => Monotype.arrow m m) hvar
  rw [generalize_of_isIndexFree (by rw [hresolve]; rfl), hresolve, freeVariables_arrow_self,
    environment_of_closed hΓ]
  rfl

/-! One equation for each rule, in the form in which the tower uses it. -/

theorem var_quiet {x : String} {t : Term} {y : Ty} {m : Monotype} (hx : Γ.get? x = some ⟨t, y⟩)
    (hm : instantiate y (quiet Γ c i j) = .ok m (quiet Γ c i' j)) :
    var x (quiet Γ c i j) = .ok (.concluded ⟨t, .mono m⟩) (quiet Γ c i' j) := by
  have hget : (quiet Γ c i j).symbols.get? x = some ⟨t, y⟩ := hx
  unfold var
  rw [Stateful.get_then, hget]
  exact (Stateful.bind_of_ok hm).trans (Stateful.bind_of_ok rfl)

theorem abs_quiet (h : i + 1 < counterRange) (x : String) : abs x (quiet Γ c i j) =
    .ok ⟨x, .var (typeVar i)⟩ (quiet (Γ.add x (.mono (.var (typeVar i)))) c (i + 1) j) :=
  Stateful.bind_of_ok (fresh_quiet h)

/-- The body is the parameter itself. -/
theorem dischargeAbs_quiet (hΓ : Γ.Proper) (h : j + 1 < counterRange) (x : String) (y : Ty)
    (m : Monotype) :
    dischargeAbs ⟨x, m⟩ ⟨.const x, .mono m⟩ (quiet (Γ.add x y) c i j) =
      .ok (.concluded ⟨identity j, .mono (.arrow m m)⟩) (quiet Γ c i (j + 1)) := by
  have hfresh : onTerms NameTable.freshVar (quiet Γ c i j) =
      .ok (NameTable.numbered j) (quiet Γ c i (j + 1)) :=
    onTerms_of_ok ((NameTable.freshVar_eq _).trans (if_pos h))
  have habstract : (Term.const x).abstractConst x (NameTable.numbered j) =
      .ok (.var (NameTable.numbered j)) := by
    simp [Term.abstractConst]
  have hcapture : (NameTable.numbered j).capture [(NameTable.numbered j).name] 0 =
      .ok ⟨s!"$e{j}", 1⟩ := by
    have hdepth : binderDepth? (NameTable.numbered j).name [(NameTable.numbered j).name] =
        some 1 := if_pos rfl
    rw [Variable.capture, if_neg fun h => h.1 rfl, hdepth]
    rfl
  have hbind : (Term.var (NameTable.numbered j)).bind [(NameTable.numbered j).name] =
      .ok (identity j) := by
    refine Term.bind_eq_ok_iff.mpr ⟨by simp, .var ⟨s!"$e{j}", 1⟩, ?_, rfl⟩
    rw [Term.capture, Term.traverse, hcapture]
    rfl
  unfold dischargeAbs
  rw [Stateful.bind_of_ok (remove_quiet hΓ x y), Stateful.bind_of_ok (instantiate_mono _ _),
    Stateful.bind_of_ok hfresh, habstract]
  refine (Stateful.bind_of_ok rfl).trans ?_
  rw [hbind]
  rfl

theorem letIn_quiet (hΓ : Γ.Closed) (x : String) (t : Term) (k : Nat) :
    letIn x ⟨t, .mono (.arrow (.var (typeVar k)) (.var (typeVar k)))⟩ (quiet Γ .empty i j) =
      .ok ⟨x, t⟩ (quiet (Γ.add x (identityType k)) .empty i j) := by
  rw [← generalize_identity (i := i) (j := j) hΓ k]
  exact Stateful.bind_of_ok (instantiate_mono _ _)

theorem dischargeLet_quiet (hΓ : Γ.Proper) (x : String) (y : Ty) (t : Term) (body : Judgment) :
    dischargeLet ⟨x, t⟩ body (quiet (Γ.add x y) c i j) =
      .ok (.concluded ⟨.define .letIn x t body.term, body.type⟩) (quiet Γ c i j) :=
  Stateful.bind_of_ok (remove_quiet hΓ x y)

/-- The operator is an identity, just opened, and the operand has a constant type. -/
theorem app_quiet (ev : Evaluator) (hfuel : 2 ≤ ev.fuel) (hroom : i + 2 < counterRange)
    (hfree : ∀ k, i ≤ k → c.get? (typeVar k).key = none) (t u : Term) (name : String) :
    app ev ⟨t, .mono (.arrow (.var (typeVar i)) (.var (typeVar i)))⟩ ⟨u, .mono (.plain name)⟩
        (quiet Γ c (i + 1) j) =
      .ok (.concluded ⟨.app t u, .mono (.plain name)⟩)
        (quiet Γ ((c.bind (typeVar i).key (.plain name)).bind (typeVar (i + 1)).key (.plain name))
          (i + 2) j) := by
  obtain ⟨natives, n, rfl⟩ : ∃ natives n, ev = ⟨natives, n + 2⟩ :=
    ⟨ev.natives, ev.fuel - 2, by rw [Nat.sub_add_cancel hfuel]⟩
  have hne : typeVar i ≠ typeVar (i + 1) := by
    intro h
    have hi : i = i + 1 := TypeContext.numbered_inj h
    omega
  have hunify := onTypes_of_ok (s := quiet Γ c (i + 2) j) (TypeContext.unify_identity natives n rfl
    hne (hfree i (by omega)) (hfree (i + 1) (by omega)) name)
  have hfind : ((c.bind (typeVar i).key (.plain name)).bind (typeVar (i + 1)).key
      (.plain name)).find (.var (typeVar (i + 1))) = .plain name :=
    ClassMap.find_var_of_some ((ClassMap.get?_bind _ _ _ _).trans (if_pos rfl)) rfl
  unfold app
  rw [Stateful.bind_of_ok (instantiate_mono _ _), Stateful.bind_of_ok (instantiate_mono _ _),
    Stateful.bind_of_ok (fresh_quiet hroom)]
  refine (Stateful.bind_of_ok hunify).trans ?_
  exact congrArg (fun m => EStateM.Result.ok (Conclusion.concluded ⟨.app t u, .mono m⟩) _) hfind

end Inference

namespace Family

open Inference

/-! ## Proofs in sequence -/

section Sequences

variable {α β : Type} {s s₁ : Inference}

theorem then_of_some {x : OptionT InferM α} {f : α → OptionT InferM β} {a : α}
    (h : x.run s = .ok (some a) s₁) : (x >>= f).run s = (f a).run s₁ := by
  rw [OptionT.run_bind]
  exact Stateful.bind_of_ok h

theorem lift_of_ok {x : InferM α} {a : α} (h : x s = .ok a s₁) :
    (liftM x : OptionT InferM α).run s = .ok (some a) s₁ := Stateful.bind_of_ok h

theorem proved_of_ok {rule : InferM Conclusion} {j : Judgment}
    (h : rule s = .ok (.concluded j) s₁) : (proved rule).run s = .ok (some j) s₁ :=
  then_of_some (lift_of_ok h)

/-- A loop whose steps lead from one state to the next gives the results of the steps. -/
theorem mapM_range' {f : Nat → OptionT InferM β} (result : Nat → β) (state : Nat → Inference)
    {i n : Nat}
    (hstep : ∀ k < i + n, (f k).run (state k) = .ok (some (result k)) (state (k + 1))) :
    ((List.range' i n).mapM f).run (state i) =
      .ok (some ((List.range' i n).map result)) (state (i + n)) := by
  induction n generalizing i with
  | zero => rfl
  | succ n ih =>
      have hrest := ih (i := i + 1) fun k hk => hstep k (by omega)
      rw [List.range'_succ, List.mapM_cons, then_of_some (hstep i (by omega)),
        then_of_some hrest, show i + 1 + n = i + (n + 1) by omega]
      rfl

/-- A loop whose steps lead from one state and value to the next ends with the last of them. -/
theorem foldlM_range' {f : β → Nat → OptionT InferM β} (value : Nat → β)
    (state : Nat → Inference) {i n : Nat} (hstep : ∀ k < i + n,
      (f (value k) k).run (state k) = .ok (some (value (k + 1))) (state (k + 1))) :
    ((List.range' i n).foldlM f (value i)).run (state i) =
      .ok (some (value (i + n))) (state (i + n)) := by
  induction n generalizing i with
  | zero => rfl
  | succ n ih =>
      rw [List.range'_succ, List.foldlM_cons, then_of_some (hstep i (by omega)),
        ih fun k hk => hstep k (by omega), show i + 1 + n = i + (n + 1) by omega]

end Sequences

/-! ## The tower -/

/-- Γ with the given number of definitions. -/
def towerTable : Nat → SymbolTable
  | 0 => SymbolTable.empty.add "0" (.mono (.plain "Int"))
  | k + 1 => (towerTable k).add s!"id{k}" (identityType k)

/-- The classes of a tower with `n` definitions after the given number of applications. -/
def towerClasses (n : Nat) : Nat → ClassMap Monotype
  | 0 => .empty
  | k + 1 => ((towerClasses n k).bind (typeVar (n + 2 * k)).key (.plain "Int")).bind
      (typeVar (n + 2 * k + 1)).key (.plain "Int")

/-- `(id<n-1> (.. (id0 0)))` -/
def towerBody : Nat → Term
  | 0 => .const "0"
  | k + 1 => .app (.const s!"id{k}") (towerBody k)

/-- `let id0 = λ v . v in (.. (let id<n-1> = λ v . v in body))` -/
def letsAround : Nat → Term → Term
  | 0, body => body
  | k + 1, body => letsAround k (.define .letIn s!"id{k}" (identity k) body)

/-- How many local definitions stand directly inside each other, the term itself included. -/
def letNesting : Term → Nat
  | .define .letIn _ _ body => letNesting body + 1
  | _ => 0

theorem letNesting_letsAround (n : Nat) (body : Term) :
    letNesting (letsAround n body) = n + letNesting body := by
  induction n generalizing body with
  | zero => exact (Nat.zero_add _).symm
  | succ n ih =>
      rw [letsAround, ih, letNesting]
      omega

theorem letNesting_towerBody (n : Nat) : letNesting (towerBody n) = 0 := by
  cases n <;> rfl

theorem proper_towerTable (n : Nat) : (towerTable n).Proper := by
  induction n with
  | zero => exact SymbolTable.proper_empty.add _ _
  | succ n ih => exact ih.add _ _

theorem closed_towerTable (n : Nat) : (towerTable n).Closed := by
  induction n with
  | zero => exact SymbolTable.closed_empty.add _ rfl
  | succ n ih => exact ih.add _ (freeVariables_identityType n)

theorem get?_towerTable_zero (n : Nat) :
    (towerTable n).get? "0" = some ⟨.const "0", .mono (.plain "Int")⟩ := by
  induction n with
  | zero => rw [towerTable, SymbolTable.get?_add, if_pos rfl]
  | succ n ih =>
      have hne : s!"id{n}" ≠ "0" := by
        intro h
        have hlist : "id".toList ++ n.repr.toList = "0".toList := by
          rw [← String.toList_append]
          exact congrArg String.toList h
        simp at hlist
      rw [towerTable, SymbolTable.get?_add, if_neg hne, ih]

theorem get?_towerTable {k n : Nat} (h : k < n) :
    (towerTable n).get? s!"id{k}" = some ⟨.const s!"id{k}", identityType k⟩ := by
  induction n with
  | zero => exact absurd h (Nat.not_lt_zero k)
  | succ n ih =>
      rw [towerTable, SymbolTable.get?_add]
      by_cases hkn : k = n
      · rw [hkn, if_pos rfl]
      · have hne : s!"id{n}" ≠ s!"id{k}" := fun h => hkn (append_repr_inj h).symm
        rw [if_neg hne, ih (by omega)]

/-- The variables that come next are free. -/
theorem get?_towerClasses {n k i : Nat} (h : n + 2 * k ≤ i) :
    (towerClasses n k).get? (typeVar i).key = none := by
  induction k with
  | zero => exact ClassMap.get?_empty _
  | succ k ih =>
      have hne : ∀ i' < i, (typeVar i').key ≠ (typeVar i).key := by
        intro i' hi' hkey
        exact absurd (typeVar_inj hkey) (by omega)
      rw [towerClasses, ClassMap.get?_bind, if_neg (hne _ (by omega)), ClassMap.get?_bind,
        if_neg (hne _ (by omega)), ih (by omega)]

/-! ## The three loops -/

/-- The context in which the given number of definitions is open. -/
def opened (k : Nat) : Inference := quiet (towerTable k) .empty k k

/-- The context in which `n` definitions are open and the given number of them is applied. -/
def applied (n k : Nat) : Inference :=
  quiet (towerTable n) (towerClasses n k) (n + 2 * k) n

theorem openIdentity_opened {k : Nat} (h : k + 1 < counterRange) :
    (openIdentity k).run (opened k) = .ok (some ⟨s!"id{k}", identity k⟩) (opened (k + 1)) := by
  have hy : ((towerTable k).add "y" (.mono (.var (typeVar k)))).get? "y" =
      some ⟨.const "y", .mono (.var (typeVar k))⟩ := by
    rw [SymbolTable.get?_add, if_pos rfl]
  have habs := lift_of_ok (abs_quiet (Γ := towerTable k) (c := .empty) (j := k) h "y")
  have hvar := proved_of_ok (var_quiet (c := .empty) (i := k + 1) (j := k) hy (instantiate_mono _ _))
  have hdischarge := proved_of_ok (dischargeAbs_quiet (c := .empty) (i := k + 1)
    (proper_towerTable k) h "y" (.mono (.var (typeVar k))) (.var (typeVar k)))
  have hlet := lift_of_ok (letIn_quiet (i := k + 1) (j := k + 1) (closed_towerTable k) s!"id{k}"
    (identity k) k)
  unfold openIdentity opened
  rw [then_of_some habs, then_of_some hvar, then_of_some hdischarge]
  exact hlet

theorem openIdentity_run {n : Nat} (h : n < counterRange) :
    ((List.range n).mapM openIdentity).run (opened 0) =
      .ok (some ((List.range n).map fun k => ⟨s!"id{k}", identity k⟩)) (opened n) := by
  have hrun := mapM_range' (i := 0) (n := n) _ opened fun k hk =>
    openIdentity_opened (k := k) (by omega)
  rwa [← List.range_eq_range', Nat.zero_add] at hrun

theorem apply_applied (ev : Evaluator) (hfuel : 2 ≤ ev.fuel) {n k : Nat} (hk : k < n)
    (hn : 3 * n < counterRange) :
    (do let operator ← proved (Inference.var s!"id{k}")
        proved (Inference.app ev operator ⟨towerBody k, .mono (.plain "Int")⟩) :
      OptionT InferM Judgment).run (applied n k) =
      .ok (some ⟨towerBody (k + 1), .mono (.plain "Int")⟩) (applied n (k + 1)) := by
  have hroom : n + 2 * k + 2 < counterRange := by omega
  have hvar := proved_of_ok (var_quiet (c := towerClasses n k) (j := n) (get?_towerTable hk)
    (instantiate_identityType k (i := n + 2 * k) (by omega)))
  have happ := proved_of_ok (app_quiet (Γ := towerTable n) (j := n) ev hfuel hroom
    (fun i hi => get?_towerClasses hi) (.const s!"id{k}") (towerBody k) "Int")
  exact (then_of_some hvar).trans happ

theorem apply_run (ev : Evaluator) (hfuel : 2 ≤ ev.fuel) {n : Nat} (hn : 3 * n < counterRange) :
    ((List.range n).foldlM (fun body k => do
      let operator ← proved (Inference.var s!"id{k}")
      proved (Inference.app ev operator body)) (⟨.const "0", .mono (.plain "Int")⟩ : Judgment)).run
        (applied n 0) =
      .ok (some ⟨towerBody n, .mono (.plain "Int")⟩) (applied n n) := by
  have hrun := foldlM_range' (i := 0) (n := n)
    (f := fun body k => do
      let operator ← proved (Inference.var s!"id{k}")
      proved (Inference.app ev operator body))
    (fun k => ⟨towerBody k, .mono (.plain "Int")⟩) (applied n)
    fun k hk => apply_applied ev hfuel (by omega) hn
  rwa [← List.range_eq_range', Nat.zero_add] at hrun

/-- The last definition is discharged first, and becomes the innermost one. -/
theorem dischargeLet_run (n : Nat) {c : ClassMap Monotype} {i j : Nat} (t : Term) (y : Ty) :
    (((List.range n).map fun k => (⟨s!"id{k}", identity k⟩ : OpenLet)).reverse.foldlM
      (fun body premise => proved (Inference.dischargeLet premise body)) (⟨t, y⟩ : Judgment)).run
        (quiet (towerTable n) c i j) =
      .ok (some ⟨letsAround n t, y⟩) (quiet (towerTable 0) c i j) := by
  induction n generalizing t with
  | zero => rfl
  | succ n ih =>
      have hstep := proved_of_ok (dischargeLet_quiet (c := c) (i := i) (j := j)
        (proper_towerTable n) s!"id{n}" (identityType n) (identity n) ⟨t, y⟩)
      simp only [List.range_succ, List.map_append, List.map_cons, List.map_nil,
        List.reverse_append, List.reverse_singleton, List.singleton_append, List.foldlM_cons]
      exact (then_of_some hstep).trans (ih _)

/-- **The tower concludes at every height.** On an empty context and with room for its type variables
it proves `n` nested definitions around the applications, of type `Int`. Nothing is reported, and only
`0` is left in Γ. -/
theorem letTower_concludes (ev : Evaluator) (hfuel : 2 ≤ ev.fuel) {n : Nat}
    (hn : 3 * n < counterRange) :
    ∃ s, (letTower ev n).run (.startingAt 0 0) =
        .ok (some ⟨letsAround n (towerBody n), .mono (.plain "Int")⟩) s ∧
      letNesting (letsAround n (towerBody n)) = n ∧ s.reports = #[] ∧
      s.symbols = SymbolTable.empty.add "0" (.mono (.plain "Int")) := by
  refine ⟨quiet (towerTable 0) (towerClasses n n) (n + 2 * n) n, ?_, ?_, rfl, rfl⟩
  · have hadd : Inference.add "0" (.mono (.plain "Int")) (.startingAt 0 0) = .ok () (opened 0) := rfl
    have hzero : (proved (Inference.var "0")).run (opened n) =
        .ok (some ⟨.const "0", .mono (.plain "Int")⟩) (applied n 0) :=
      proved_of_ok (var_quiet (get?_towerTable_zero n) (instantiate_mono _ _))
    unfold letTower
    rw [then_of_some (lift_of_ok hadd), then_of_some (openIdentity_run (by omega)),
      then_of_some hzero, then_of_some (apply_run ev hfuel hn)]
    exact dischargeLet_run n _ _
  · rw [letNesting_letsAround, letNesting_towerBody, Nat.add_zero]

/-- `let id0 = λ v . v in let id1 = λ v . v in (id1 (id0 0))`, with the least fuel. -/
theorem letTower_concludes_of_two :
    3 * 2 < counterRange ∧
      ∃ s, (letTower ⟨fun _ _ => .fail none, 2⟩ 2).run (.startingAt 0 0) =
          .ok (some ⟨.define .letIn "id0" (.abs [⟨"$e0", 1⟩] (.var ⟨"$e0", 1⟩))
            (.define .letIn "id1" (.abs [⟨"$e1", 1⟩] (.var ⟨"$e1", 1⟩))
              (.app (.const "id1") (.app (.const "id0") (.const "0")))), .mono (.plain "Int")⟩) s ∧
        s.reports = #[] ∧ s.symbols = SymbolTable.empty.add "0" (.mono (.plain "Int")) := by
  obtain ⟨s, hrun, -, hend⟩ :=
    letTower_concludes ⟨fun _ _ => .fail none, 2⟩ (by decide) (n := 2) (by decide)
  exact ⟨by decide, s, hrun, hend⟩

end Family

end IndexedLambda
