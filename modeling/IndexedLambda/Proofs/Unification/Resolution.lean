import IndexedLambda.Proofs.Keys
import IndexedLambda.Proofs.Types.Substitution
/-!
# Following bindings in a class map

`ClassMap.find` and `ClassMap.resolve` set a binding aside once they have followed it. That makes
them total, and it hides the equations one expects of them: a bound variable has the representative
of what it is bound to. The equations hold when bindings do not lead back to where they started. A
rank, which goes down along every binding, says so in a form that inductions can use.

Everything here follows from one comparison. Two maps that agree on all variables of smaller rank
give the same walk, with any number of steps that is not below the number of bindings; so setting
aside a binding of larger rank changes nothing.
-/

namespace IndexedLambda.ClassMap

section Find

variable {α : Type}

theorem size_erase_lt {c : ClassMap α} {key : String} {b : α} (h : c.get? key = some b) :
    (c.erase key).size < c.size := by
  have hmem : key ∈ c.bindings :=
    Std.ExtTreeMap.mem_iff_isSome_getElem?.mpr (by rw [show c.bindings[key]? = some b from h]; rfl)
  have hpos : c.bindings.size ≠ 0 := fun hzero => by
    have hempty := Std.ExtTreeMap.eq_empty_iff_size_eq_zero.mpr hzero
    exact Std.ExtTreeMap.eq_empty_iff_forall_not_mem.mp hempty key hmem
  have hsize : (c.erase key).size = c.bindings.size - 1 := by
    rw [size, erase, Std.ExtTreeMap.size_erase, if_pos (Std.ExtTreeMap.mem_iff_contains.mp hmem)]
  have hc : c.size = c.bindings.size := rfl
  omega

theorem size_bind {c : ClassMap α} {key : String} (h : c.get? key = none) (a : α) :
    (c.bind key a).size = c.size + 1 := by
  have hnew : key ∉ c.bindings := by
    intro hmem
    rw [Std.ExtTreeMap.mem_iff_isSome_getElem?, show c.bindings[key]? = none from h] at hmem
    cases hmem
  rw [size, bind, Std.ExtTreeMap.size_insert, if_neg (Std.ExtTreeMap.mem_iff_contains.not.mp hnew),
    size]

variable [Keyed α]

/-- A rank that every binding lowers. -/
def Descends (c : ClassMap α) (rank : α → Nat) : Prop :=
  ∀ a b, c.next? a = some b → rank b < rank a

theorem next?_eq_some {c : ClassMap α} {a b : α} :
    c.next? a = some b ↔ ∃ key, Keyed.key? a = some key ∧ c.get? key = some b :=
  Option.bind_eq_some_iff

theorem findWithin_of_next?_none {c : ClassMap α} {a : α} (h : c.next? a = none) (n : Nat) :
    findWithin n c a = a := by
  cases n with
  | zero => rfl
  | succ n =>
      rw [findWithin]
      split
      · rfl
      · rename_i key hkey
        have hget : c.get? key = none := by rw [next?, hkey] at h; exact h
        rw [hget]

theorem find_of_next?_none {c : ClassMap α} {a : α} (h : c.next? a = none) : c.find a = a :=
  findWithin_of_next?_none h _

theorem findWithin_succ {c : ClassMap α} {a b : α} {key : String} (hkey : Keyed.key? a = some key)
    (hget : c.get? key = some b) (n : Nat) :
    findWithin (n + 1) c a = findWithin n (c.erase key) b := by
  simp only [findWithin, hkey, hget]

theorem Descends.erase {c : ClassMap α} {rank : α → Nat} (h : c.Descends rank) (key : String) :
    (c.erase key).Descends rank := by
  intro a b hab
  obtain ⟨key', ha, hget⟩ := next?_eq_some.mp hab
  rw [get?_erase] at hget
  split at hget
  · exact absurd hget (by simp)
  · exact h a b (next?_eq_some.mpr ⟨key', ha, hget⟩)

/-- An induction along the walk from a value to its representative. -/
theorem Descends.walk_induction {c : ClassMap α} {rank : α → Nat} (hc : c.Descends rank)
    {motive : α → Prop} (unbound : ∀ a, c.next? a = none → motive a)
    (bound : ∀ a b, c.next? a = some b → motive b → motive a) (a : α) : motive a := by
  induction hr : rank a using Nat.strongRecOn generalizing a with
  | ind r ih =>
      cases h : c.next? a with
      | none => exact unbound a h
      | some b => exact bound a b h (ih (rank b) (hr ▸ hc a b h) b rfl)

variable [LawfulKeyed α]

theorem next?_erase_of_ne {c : ClassMap α} {a x : α} {key : String}
    (hkey : Keyed.key? a = some key) (hx : x ≠ a) : (c.erase key).next? x = c.next? x := by
  unfold next?
  cases hx' : Keyed.key? x with
  | none => rfl
  | some key' =>
      have hne : key ≠ key' := fun e => hx (LawfulKeyed.eq_of_key hx' (e ▸ hkey))
      show (c.erase key).get? key' = c.get? key'
      rw [get?_erase, if_neg hne]

theorem next?_bind_of_ne {c : ClassMap α} {a b x : α} {key : String}
    (hkey : Keyed.key? a = some key) (hx : x ≠ a) : (c.bind key b).next? x = c.next? x := by
  unfold next?
  cases hx' : Keyed.key? x with
  | none => rfl
  | some key' =>
      have hne : key ≠ key' := fun e => hx (LawfulKeyed.eq_of_key hx' (e ▸ hkey))
      show (c.bind key b).get? key' = c.get? key'
      rw [get?_bind, if_neg hne]

/-- Maps that agree on values of no larger rank give one walk, whatever steps it is allowed. -/
theorem findWithin_congr {rank : α → Nat} {n k : Nat} {c d : ClassMap α} {a : α}
    (hc : c.Descends rank) (hcd : ∀ x, rank x ≤ rank a → c.next? x = d.next? x)
    (hn : c.size ≤ n) (hk : d.size ≤ k) : findWithin n c a = findWithin k d a := by
  induction hr : rank a using Nat.strongRecOn generalizing n k c d a with
  | ind r ih =>
      subst hr
      cases h : c.next? a with
      | none =>
          rw [findWithin_of_next?_none h, findWithin_of_next?_none (hcd a (Nat.le_refl _) ▸ h)]
      | some b =>
          obtain ⟨key, hkey, hget⟩ := next?_eq_some.mp h
          obtain ⟨key', hkey', hget'⟩ := next?_eq_some.mp (hcd a (Nat.le_refl _) ▸ h)
          obtain rfl : key = key' := Option.some.inj (hkey.symm.trans hkey')
          have hsmall := size_erase_lt hget
          have hsmall' := size_erase_lt hget'
          obtain ⟨n, rfl⟩ : ∃ n', n = n' + 1 := ⟨n - 1, by omega⟩
          obtain ⟨k, rfl⟩ : ∃ k', k = k' + 1 := ⟨k - 1, by omega⟩
          have hdown : rank b < rank a := hc a b h
          -- both walks set the binding of `a` aside, which no value of smaller rank asks for
          rw [findWithin_succ hkey hget, findWithin_succ hkey hget']
          refine ih (rank b) hdown (hc.erase key) (fun x hx => ?_) (by omega) (by omega) rfl
          have hxa : x ≠ a := by rintro rfl; omega
          rw [next?_erase_of_ne hkey hxa, next?_erase_of_ne hkey hxa]
          exact hcd x (by omega)

/-- A bound value has the representative of what it is bound to. -/
theorem find_of_next? {c : ClassMap α} {rank : α → Nat} (hc : c.Descends rank) {a b : α}
    (h : c.next? a = some b) : c.find a = c.find b := by
  obtain ⟨key, hkey, hget⟩ := next?_eq_some.mp h
  have hsmall := size_erase_lt hget
  obtain ⟨n, hn⟩ : ∃ n, c.size = n + 1 := ⟨c.size - 1, by omega⟩
  have hdown : rank b < rank a := hc a b h
  rw [find, find, hn, findWithin_succ hkey hget]
  refine findWithin_congr (hc.erase key) (fun x hx => ?_) (by omega) (by omega)
  exact next?_erase_of_ne hkey (by rintro rfl; omega)

/-- A representative is not bound. -/
theorem next?_find {c : ClassMap α} {rank : α → Nat} (hc : c.Descends rank) (a : α) :
    c.next? (c.find a) = none := by
  induction a using hc.walk_induction with
  | unbound a h =>
      rw [find_of_next?_none h]
      exact h
  | bound a b h ih =>
      rw [find_of_next? hc h]
      exact ih

theorem find_find {c : ClassMap α} {rank : α → Nat} (hc : c.Descends rank) (a : α) :
    c.find (c.find a) = c.find a := find_of_next?_none (next?_find hc a)

end Find

/-! ## Bindings of types and of index terms

For types a rank is asked for that goes down to every variable of the bound type, since resolving
goes on inside it. Index terms are only followed at their root. -/

/-- A rank of type variables that goes down to every variable of what a variable is bound to. -/
def TypesDescend (c : ClassMap Monotype) (rank : TypeVariable → Nat) : Prop :=
  ∀ v m, c.get? v.key = some m → ∀ w ∈ m.occurrences, rank w < rank v

/-- A rank of index variables that goes down when a variable is bound to a variable. -/
def KindsDescend (c : ClassMap Term) (rank : Variable → Nat) : Prop :=
  ∀ v w, c.get? v.key = some (.var w) → rank w < rank v

@[simp] theorem next?_var (c : ClassMap Monotype) (v : TypeVariable) :
    c.next? (.var v) = c.get? v.key := rfl

@[simp] theorem next?_term_var (c : ClassMap Term) (v : Variable) :
    c.next? (.var v) = c.get? v.key := rfl

theorem next?_of_rigid {c : ClassMap Monotype} {m : Monotype} (hm : m.isVariable = false) :
    c.next? m = none := by
  cases m with
  | var v => cases hm
  | _ => rfl

theorem find_rigid {c : ClassMap Monotype} {m : Monotype} (hm : m.isVariable = false) :
    c.find m = m := find_of_next?_none (next?_of_rigid hm)

/-- A variable that is bound to something else than a variable has it for representative. -/
theorem find_var_of_some {c : ClassMap Monotype} {v : TypeVariable} {m : Monotype}
    (hget : c.get? v.key = some m) (hm : m.isVariable = false) : c.find (.var v) = m := by
  have hsize := size_erase_lt hget
  obtain ⟨n, hn⟩ : ∃ n, c.size = n + 1 := ⟨c.size - 1, by omega⟩
  have hkey : Keyed.key? (Monotype.var v) = some v.key := rfl
  rw [find, hn, findWithin_succ hkey hget, findWithin_of_next?_none (next?_of_rigid hm)]

/-- A rank of variables as a rank of types: what is not a variable ends every walk. -/
def typeRank (rank : TypeVariable → Nat) : Monotype → Nat
  | .var v => rank v + 1
  | _ => 0

/-- A rank of variables as a rank of index terms. -/
def termRank (rank : Variable → Nat) : Term → Nat
  | .var v => rank v + 1
  | _ => 0

theorem TypesDescend.descends {c : ClassMap Monotype} {rank : TypeVariable → Nat}
    (h : c.TypesDescend rank) : c.Descends (typeRank rank) := by
  intro a b hab
  cases a with
  | var v =>
      cases b with
      | var w => exact Nat.succ_lt_succ (h v (.var w) hab w (by simp))
      | const c => exact Nat.succ_pos _
      | app head params => exact Nat.succ_pos _
      | inst head params index => exact Nat.succ_pos _
  | const c => exact absurd hab (by simp [next?, Keyed.key?, Monotype.asVariable])
  | app head params => exact absurd hab (by simp [next?, Keyed.key?, Monotype.asVariable])
  | inst head params index => exact absurd hab (by simp [next?, Keyed.key?, Monotype.asVariable])

theorem KindsDescend.descends {c : ClassMap Term} {rank : Variable → Nat}
    (h : c.KindsDescend rank) : c.Descends (termRank rank) := by
  intro a b hab
  cases a with
  | var v =>
      cases b with
      | var w => exact Nat.succ_lt_succ (h v w hab)
      | _ => exact Nat.succ_pos _
  | _ => exact absurd hab (by simp [next?, Keyed.key?])

/-! ## Resolving -/

section Resolve

variable (kinds : ClassMap Term)

/-- Resolving a type resolves its variables and finds its index terms. -/
theorem resolveWithin_eq_subst (n : Nat) (c : ClassMap Monotype) (m : Monotype) :
    resolveWithin kinds n c m =
      (m.mapIndex kinds.find).subst fun v => resolveWithin kinds n c (.var v) := by
  cases n with
  | zero => exact (Monotype.subst_eq_self fun v _ => rfl).symm
  | succ n => rfl

theorem resolve_eq_subst (c : ClassMap Monotype) (m : Monotype) :
    c.resolve kinds m = (m.mapIndex kinds.find).subst fun v => c.resolve kinds (.var v) :=
  resolveWithin_eq_subst kinds c.size c m

theorem resolveWithin_var_of_none {c : ClassMap Monotype} {v : TypeVariable}
    (h : c.get? v.key = none) (n : Nat) : resolveWithin kinds n c (.var v) = .var v := by
  cases n with
  | zero => rfl
  | succ n => simp [resolveWithin, h]

theorem resolveWithin_var_succ {c : ClassMap Monotype} {v : TypeVariable} {m : Monotype}
    (h : c.get? v.key = some m) (n : Nat) :
    resolveWithin kinds (n + 1) c (.var v) = resolveWithin kinds n (c.erase v.key) m := by
  simp [resolveWithin, h]

theorem TypesDescend.erase {c : ClassMap Monotype} {rank : TypeVariable → Nat}
    (h : c.TypesDescend rank) (key : String) : (c.erase key).TypesDescend rank := by
  intro v m hget
  rw [get?_erase] at hget
  split at hget
  · exact absurd hget (by simp)
  · exact h v m hget

theorem get?_erase_of_ne (c : ClassMap Monotype) {v w : TypeVariable} (h : w ≠ v) :
    (c.erase v.key).get? w.key = c.get? w.key := by
  rw [get?_erase, if_neg (fun e => h (TypeVariable.key_injective e).symm)]

/-- Maps that agree on variables of smaller rank resolve a type alike. -/
theorem resolveWithin_congr {rank : TypeVariable → Nat} {n k bound : Nat}
    {c d : ClassMap Monotype} {m : Monotype} (hc : c.TypesDescend rank)
    (hcd : ∀ w, rank w < bound → c.get? w.key = d.get? w.key)
    (hm : ∀ w ∈ m.occurrences, rank w < bound) (hn : c.size ≤ n) (hk : d.size ≤ k) :
    resolveWithin kinds n c m = resolveWithin kinds k d m := by
  induction bound using Nat.strongRecOn generalizing n k c d m with
  | ind bound ih =>
      rw [resolveWithin_eq_subst, resolveWithin_eq_subst kinds k]
      refine Monotype.subst_congr fun v hv => ?_
      have hv' := hm v (Monotype.mem_occurrences_mapIndex.mp hv)
      cases hget : c.get? v.key with
      | none =>
          rw [resolveWithin_var_of_none kinds hget,
            resolveWithin_var_of_none kinds (hcd v hv' ▸ hget)]
      | some rep =>
          have hget' : d.get? v.key = some rep := hcd v hv' ▸ hget
          have hsmall := size_erase_lt hget
          have hsmall' := size_erase_lt hget'
          obtain ⟨n, rfl⟩ : ∃ n', n = n' + 1 := ⟨n - 1, by omega⟩
          obtain ⟨k, rfl⟩ : ∃ k', k = k' + 1 := ⟨k - 1, by omega⟩
          -- the binding that is set aside has the rank of `v`, and what it leads to is below
          rw [resolveWithin_var_succ kinds hget, resolveWithin_var_succ kinds hget']
          refine ih (rank v) hv' (hc.erase v.key) (fun w hw => ?_) (hc v rep hget) (by omega)
            (by omega)
          have hne : w ≠ v := by rintro rfl; omega
          rw [get?_erase_of_ne c hne, get?_erase_of_ne d hne]
          exact hcd w (by omega)

theorem resolve_var_of_none {c : ClassMap Monotype} {v : TypeVariable}
    (h : c.get? v.key = none) : c.resolve kinds (.var v) = .var v :=
  resolveWithin_var_of_none kinds h _

/-- A bound variable resolves to what its binding resolves to. -/
theorem resolve_var_of_some {c : ClassMap Monotype} {rank : TypeVariable → Nat}
    (hc : c.TypesDescend rank) {v : TypeVariable} {m : Monotype} (h : c.get? v.key = some m) :
    c.resolve kinds (.var v) = c.resolve kinds m := by
  have hsmall := size_erase_lt h
  obtain ⟨n, hn⟩ : ∃ n, c.size = n + 1 := ⟨c.size - 1, by omega⟩
  rw [resolve, resolve, hn, resolveWithin_var_succ kinds h]
  refine resolveWithin_congr kinds (hc.erase v.key) (fun w hw => ?_) (hc v m h) (by omega)
    (by omega)
  exact get?_erase_of_ne c (by rintro rfl; exact Nat.lt_irrefl _ hw)

end Resolve

end IndexedLambda.ClassMap
