import IndexedLambda.Unification.ClassMap
import Std.Data.String.ToInt
/-!
# Keys tell variables apart

A class map knows a variable only by its key, so a binding reaches the right variable just if no two
variables share one. The key of a type variable is its name, a `#` and a number; the key of an index
variable is its name, a `[`, a number and a `]`. Names are arbitrary and may hold these marks
themselves. What makes the keys unambiguous is that a written number holds none of them: the last
mark of a key is the one that ends the name.
-/

namespace IndexedLambda

/-! ## The last separator of a text -/

/-- Two texts that are cut at their last separator agree piece by piece. -/
theorem append_sep_inj {sep : Char} {a b c d : List Char} (hb : sep ∉ b) (hd : sep ∉ d)
    (h : a ++ sep :: b = c ++ sep :: d) : a = c ∧ b = d := by
  induction a generalizing c with
  | nil =>
      cases c with
      | nil => simpa using h
      | cons x c =>
          obtain ⟨rfl, rfl⟩ : sep = x ∧ b = c ++ sep :: d := by simpa using h
          exact absurd (by simp) hb
  | cons x a ih =>
      cases c with
      | nil =>
          obtain ⟨rfl, rfl⟩ : x = sep ∧ a ++ sep :: b = d := by simpa using h
          exact absurd (by simp) hd
      | cons y c =>
          simp only [List.cons_append, List.cons.injEq] at h
          obtain ⟨rfl, hbd⟩ := ih h.2
          exact ⟨by rw [h.1], hbd⟩

theorem isDigit_of_mem_repr {n : Nat} {ch : Char} (h : ch ∈ n.repr.toList) :
    ch.isDigit = true := by
  rw [Nat.toList_repr] at h
  exact Nat.isDigit_of_mem_toDigits (by decide) (by decide) h

/-- A written integer consists of digits and minus signs. -/
theorem isDigit_or_minus_of_mem_repr {i : Int} {ch : Char} (h : ch ∈ i.repr.toList) :
    ch.isDigit = true ∨ ch = '-' := by
  cases i with
  | ofNat n => exact Or.inl (isDigit_of_mem_repr h)
  | negSucc n =>
      have h' : ch ∈ ("-" ++ (n + 1).repr).toList := h
      rw [String.toList_append, List.mem_append] at h'
      rcases h' with h' | h'
      · exact Or.inr (by simpa using h')
      · exact Or.inl (isDigit_of_mem_repr h')

/-- Names that are made of one stem and a number tell the numbers apart. -/
theorem append_repr_inj {stem : String} {i j : Nat} (h : stem ++ i.repr = stem ++ j.repr) :
    i = j := by
  have hlist := congrArg String.toList h
  rw [String.toList_append, String.toList_append] at hlist
  exact Nat.repr_injective (String.toList_inj.mp (List.append_cancel_left hlist))

/-! ## The two kinds of keys -/

theorem TypeVariable.toList_key (v : TypeVariable) :
    v.key.toList = v.name.toList ++ '#' :: v.context.repr.toList := by
  have h : v.key = v.name ++ "#" ++ v.context.repr := rfl
  rw [h, String.toList_append, String.toList_append, List.append_assoc]
  rfl

theorem Variable.toList_key (v : Variable) :
    v.key.toList = v.name.toList ++ '[' :: (v.depth.repr.toList ++ [']']) := by
  have h : v.key = v.name ++ "[" ++ v.depth.repr ++ "]" := rfl
  rw [h, String.toList_append, String.toList_append, String.toList_append, List.append_assoc,
    List.append_assoc]
  rfl

/-- Type variables with one key are one variable. -/
theorem TypeVariable.key_injective {v w : TypeVariable} (h : v.key = w.key) : v = w := by
  have hlist := congrArg String.toList h
  rw [toList_key, toList_key] at hlist
  have noMark : ∀ i : Int, '#' ∉ i.repr.toList := fun i hi => by
    rcases isDigit_or_minus_of_mem_repr hi with hd | hd <;> exact absurd hd (by decide)
  obtain ⟨hname, hcontext⟩ := append_sep_inj (noMark _) (noMark _) hlist
  obtain ⟨name, context⟩ := v
  obtain ⟨name', context'⟩ := w
  rw [TypeVariable.mk.injEq]
  exact ⟨String.toList_inj.mp hname, Int.repr_injective (String.toList_inj.mp hcontext)⟩

/-- Index variables with one key are one variable. -/
theorem Variable.key_injective {v w : Variable} (h : v.key = w.key) : v = w := by
  have hlist := congrArg String.toList h
  rw [toList_key, toList_key] at hlist
  have noMark : ∀ n : Nat, '[' ∉ n.repr.toList ++ [']'] := fun n hn => by
    rcases List.mem_append.mp hn with hd | hd
    · exact absurd (isDigit_of_mem_repr hd) (by decide)
    · exact absurd hd (by decide)
  obtain ⟨hname, hdepth⟩ := append_sep_inj (noMark _) (noMark _) hlist
  obtain ⟨name, depth⟩ := v
  obtain ⟨name', depth'⟩ := w
  rw [Variable.mk.injEq]
  exact ⟨String.toList_inj.mp hname,
    Nat.repr_injective (String.toList_inj.mp (List.append_cancel_right hdepth))⟩

@[simp] theorem TypeVariable.key_inj {v w : TypeVariable} : v.key = w.key ↔ v = w :=
  ⟨key_injective, congrArg key⟩

@[simp] theorem Variable.key_inj {v w : Variable} : v.key = w.key ↔ v = w :=
  ⟨key_injective, congrArg key⟩

/-- Keys that tell values apart: what one key names is one value. -/
class LawfulKeyed (α : Type) [Keyed α] : Prop where
  eq_of_key {a b : α} {key : String} : Keyed.key? a = some key → Keyed.key? b = some key → a = b

instance : LawfulKeyed Monotype where
  eq_of_key {a b key} ha hb := by
    cases a <;> cases b <;>
      simp only [Keyed.key?, Monotype.asVariable, Option.map_some, Option.map_none,
        Option.some.injEq, reduceCtorEq] at ha hb
    exact congrArg _ (TypeVariable.key_injective (ha.trans hb.symm))

instance : LawfulKeyed Term where
  eq_of_key {a b key} ha hb := by
    cases a <;> cases b <;> simp only [Keyed.key?, Option.some.injEq, reduceCtorEq] at ha hb
    exact congrArg _ (Variable.key_injective (ha.trans hb.symm))

end IndexedLambda
