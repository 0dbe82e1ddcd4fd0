import IndexedLambda.Proofs.Algebra.Operands
import IndexedLambda.Proofs.Unification.Confined
import IndexedLambda.Proofs.Unification.Termination
/-!
# Stack discipline of the rule machine

Applying a rule either replaces its operands by one type, or refuses them and changes nothing, or
leaves the stack without them because two types could not be unified (`Outcome`). Besides, a fault
may stop the rule. In acyclic classes and with room in the counter, the only faults that are left come
from two index terms whose comparison has no answer, and from types that cannot be written
(`BuiltinRule.Blocked`).

The evaluation of index terms is bounded. `Concludes` says of an operation that its result is the
same from some bound on, and `BuiltinRule.concludes` that the operations behind the rules are such.
-/

namespace IndexedLambda

open TypeContext

/-- The context differs from another one by fresh variables that have been made since. -/
structure TypeContext.Drawn (c : TypeContext) (k : Nat) (d : TypeContext) : Prop where
  known : d.known = c.known
  number : d.number = c.number
  nextVar : d.nextVar = c.nextVar + k

theorem TypeContext.Drawn.refl (c : TypeContext) : c.Drawn 0 c := ⟨rfl, rfl, rfl⟩

theorem TypeContext.Drawn.grows {R : Region} {c d : TypeContext} {k : Nat} (h : c.Drawn k d) :
    Grows R c.known d.known := by
  rw [h.known]

/-! ## Operations that come to an end -/

section Concludes

variable {α β : Type} {stuck : Fault → Prop} {Q : α → TypeContext → Prop}
  {P : β → TypeContext → Prop} {c : TypeContext}

/-- How an operation ends: with a value as described, with types that cannot be unified, or with a
fault as described. -/
inductive Ending (stuck : Fault → Prop) (Q : α → TypeContext → Prop) :
    EStateM.Result Refusal TypeContext α → Prop
  | ok {a : α} {d : TypeContext} : Q a d → Ending stuck Q (.ok a d)
  | unification {status : Status} {left right : String} {d : TypeContext} : status ≠ .ok →
      Ending stuck Q (.error (.error (.unification status left right)) d)
  | fault {f : Fault} {d : TypeContext} : stuck f → Ending stuck Q (.error (.fault f) d)

/-- From some bound on the operation ends in one way. -/
def Concludes (x : Nat → AlgebraM α) (stuck : Fault → Prop) (Q : α → TypeContext → Prop)
    (c : TypeContext) : Prop :=
  ∃ result bound, (∀ n, bound ≤ n → x n c = result) ∧ Ending stuck Q result

namespace Concludes

theorem pure {a : α} (h : Q a c) : Concludes (fun _ => Pure.pure a) stuck Q c :=
  ⟨.ok a c, 0, fun _ _ => rfl, .ok h⟩

theorem bind {x : Nat → AlgebraM α} {f : Nat → α → AlgebraM β} (hx : Concludes x stuck Q c)
    (hf : ∀ a d, Q a d → Concludes (fun n => f n a) stuck P d) :
    Concludes (fun n => x n >>= f n) stuck P c := by
  obtain ⟨result, bound, hrun, hending⟩ := hx
  cases hending with
  | @ok a d ha =>
      obtain ⟨result', bound', hrun', hending'⟩ := hf a d ha
      refine ⟨result', max bound bound', fun n hn => ?_, hending'⟩
      exact (Stateful.bind_of_ok (hrun n (by omega))).trans (hrun' n (by omega))
  | unification hstatus =>
      exact ⟨_, bound, fun n hn => Stateful.bind_of_error (hrun n hn), .unification hstatus⟩
  | fault hstuck =>
      exact ⟨_, bound, fun n hn => Stateful.bind_of_error (hrun n hn), .fault hstuck⟩

/-- What is made of the value does not matter. -/
theorem map {x : Nat → AlgebraM α} (g : α → β) (hx : Concludes x stuck (fun _ _ => True) c) :
    Concludes (fun n => do return g (← x n)) stuck (fun _ _ => True) c :=
  .bind hx fun _ _ _ => .pure trivial

theorem representative (m : Monotype) :
    Concludes (fun _ => Algebra.representative m) stuck (fun _ _ => True) c :=
  ⟨.ok (c.find m) c, 0, fun _ _ => rfl, .ok trivial⟩

/-- A fresh variable is made, and the operation goes on with it. -/
theorem fresh {k : Nat} {d : TypeContext} {f : Nat → Monotype → AlgebraM β} (hd : c.Drawn k d)
    (hroom : c.nextVar + k + 1 < counterRange)
    (hf : ∀ e, c.Drawn (k + 1) e →
      Concludes (fun n => f n (.var (c.numbered (c.nextVar + k)))) stuck P e) :
    Concludes (fun n => TypeContext.fresh.toAlgebra >>= f n) stuck P d := by
  have hfresh := Algebra.fresh_of_room (c := d) (by rw [hd.nextVar]; exact hroom)
  have hname : d.numbered d.nextVar = c.numbered (c.nextVar + k) := by
    rw [hd.nextVar, numbered, numbered, hd.number]
  rw [hname] at hfresh
  have hnext : d.nextVar + 1 = c.nextVar + (k + 1) := by
    rw [hd.nextVar, Nat.add_assoc]
  obtain ⟨result, bound, hrun, hending⟩ :=
    hf { d with nextVar := d.nextVar + 1 } ⟨hd.known, hd.number, hnext⟩
  exact ⟨result, bound, fun n hn => (Stateful.bind_of_ok hfresh).trans (hrun n hn), hending⟩

/-- Two types of a region and of a sort are unified, unless two index terms of the region cannot be
compared or a type of the sort cannot be written. -/
theorem require {natives : InstructionSet} {R : Region} {S : Monotype → Prop} {d : TypeContext}
    {a b : Monotype} {f : Nat → Unit → AlgebraM β} (hc : c.known.Acyclic) (hS : Monotype.Pervasive S)
    (hd : Stays R S c d) (ha : R.Holds (c.resolve a) ∧ S a) (hb : R.Holds (c.resolve b) ∧ S b)
    (hstuck : ∀ fault s t, R.terms s → R.terms t → Fails natives fault s t → stuck fault)
    (hcut : ∀ {m fault}, S m → m.render = .error fault → stuck fault)
    (hf : ∀ e, Stays R S c e → Concludes (fun n => f n ()) stuck P e) :
    Concludes (fun n => Algebra.require ⟨natives, n⟩ a b >>= f n) stuck P d := by
  have hacyclic := hd.grows.acyclic hc
  have ha' : R.Holds (d.resolve a) := hd.grows.holds hc ha.1
  have hb' : R.Holds (d.resolve b) := hd.grows.holds hc hb.1
  obtain ⟨result, bound, hrun, hfails⟩ : Settles (fun n => unify natives n a b)
      (fun fault e => Stuck natives a b fault e ∨ stuck fault) d :=
    unify_settles_or hS hcut hacyclic hd.throughout ha.2 hb.2
  have hstays : Stays R S d (endOf result) := by
    rw [← hrun bound (Nat.le_refl _)]
    exact ⟨unify_grows bound hacyclic ha' hb',
      unify_keeps_throughout hS id (fun h _ => h) bound ha.2 hb.2 d hd.throughout⟩
  refine .bind (Q := fun _ e => Stays R S c e) ?_ fun _ => hf
  cases result with
  | ok status e =>
      by_cases hstatus : status = .ok
      · subst hstatus
        exact ⟨_, bound, fun n hn => Algebra.require_of_ok (hrun n hn),
          .ok ⟨hd.grows.trans hstays.grows, hstays.throughout⟩⟩
      · refine ⟨_, bound, fun n hn => Algebra.require_of_mismatch hstatus (hrun n hn), ?_⟩
        rcases Algebra.complaint_cases status (e.resolve a).render (e.resolve b).render with
          ⟨left, right, hcomplaint⟩ | ⟨fault, hfault, hcomplaint⟩
        · rw [hcomplaint]
          exact .unification hstatus
        · rw [hcomplaint]
          rcases hfault with hfault | hfault
          · exact .fault (hcut (throughout_resolve hS hstays.throughout ha.2) hfault)
          · exact .fault (hcut (throughout_resolve hS hstays.throughout hb.2) hfault)
  | error fault e =>
      refine ⟨_, bound, fun n hn => Algebra.require_of_fault (hrun n hn), .fault ?_⟩
      rcases hfails fault e rfl with ⟨s, hs, t, ht, hfail⟩ | hexcused
      · exact hstuck fault s t ((hstays.grows.holds hacyclic ha').terms s hs)
          ((hstays.grows.holds hacyclic hb').terms t ht) hfail
      · exact hexcused

end Concludes

end Concludes

/-! ## The operations behind the rules -/

namespace BuiltinRule

/-- Everything is well split that a variable is bound to or that is among the operands. -/
structure WellSplit (c : TypeContext) (operands : List Ty) : Prop where
  classes : c.known.types.Throughout (·.isWellSplit = true)
  operands : ∀ m, Ty.mono m ∈ operands → m.isWellSplit = true

variable {natives : InstructionSet} {r : BuiltinRule} {c : TypeContext} {operands : List Ty}

end BuiltinRule

/-! ## Applying a rule -/

namespace RuleTable

variable {ev : Evaluator} {table : RuleTable}

theorem apply_eq (htable : (builtin ev).rules <+: table.rules) (r : BuiltinRule) :
    table.apply r.id = (do Stack.push (← r.rule ev)) := by
  have hentry : table.rules[r.id]? = some (r.name, r.rule ev) := by
    obtain ⟨further, hfurther⟩ := htable
    have hbuiltin := r.getElem?_builtin ev
    obtain ⟨hlt, -⟩ := List.getElem?_eq_some_iff.mp hbuiltin
    rw [← hfurther, List.getElem?_append_left hlt, hbuiltin]
  unfold apply
  rw [hentry]

theorem applyNamed_eq (htable : (builtin ev).rules <+: table.rules) (r : BuiltinRule) :
    table.applyNamed r.name = table.apply r.id := by
  have hid : table.idOf? r.name = some r.id := by
    obtain ⟨further, hfurther⟩ := htable
    have hbuiltin : (builtin ev).rules.findIdx? (·.1 = r.name) = some r.id := by
      cases r <;> rfl
    unfold idOf?
    rw [← hfurther, List.findIdx?_append, hbuiltin]
    rfl
  unfold applyNamed
  rw [hid]

end RuleTable

end IndexedLambda
