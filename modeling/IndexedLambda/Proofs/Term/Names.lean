import IndexedLambda.Proofs.Term.WellFormed
/-!
# The names in a term

Which names the variables of a term have, at their occurrences and at their binders. Depths do not
matter here, so nothing that only moves a term changes its names. Binding a name adds it as a
binder, and turning a constant into a variable adds the name of the variable. Constants are not
counted.
-/

namespace IndexedLambda

/-- Demands a name of the given sort of every occurrence and of every binder. -/
def Discipline.named (P : String → Prop) : Discipline where
  occurrence _ v := P v.name
  binders _ vs := ∀ v ∈ vs, P v.name
  arguments _ _ := True
  definitions _ := True

theorem Variable.name_captured (names : List String) (j : Nat) (v : Variable) :
    (v.captured names j).name = v.name := by
  unfold captured
  split
  · rfl
  · split
    · rfl
    · split <;> rfl

namespace Term

/-- All variables of the term, bound and free, have names of the given sort. -/
def NamedBy (P : String → Prop) (t : Term) : Prop := t.Respects (.named P) []

variable {P Q : String → Prop} {t u : Term}

theorem namedBy_var {v : Variable} : (Term.var v).NamedBy P ↔ P v.name := respects_var

theorem namedBy_const (c : String) : (Term.const c).NamedBy P := respects_const

theorem NamedBy.app (ht : t.NamedBy P) (hu : u.NamedBy P) : (Term.app t u).NamedBy P :=
  respects_app.mpr ⟨ht, hu⟩

theorem NamedBy.define (form : LetForm) (x : String) (ht : t.NamedBy P) (hu : u.NamedBy P) :
    (Term.define form x t u).NamedBy P := respects_define.mpr ⟨ht, hu⟩

/-- What is asked of a name does not depend on where it stands. -/
theorem Respects.named {scope scope' : List String} (ht : t.Respects (.named P) scope)
    (hPQ : ∀ x, P x → Q x) : t.Respects (.named Q) scope' := by
  have hcarries : Carries (fun _ v => .var v) (.named P) (.named Q) scope scope' :=
    ⟨fun _ v hv => respects_var.mpr (hPQ v.name hv), fun _ _ hvs v hv => hPQ v.name (hvs v hv),
      fun _ _ _ => trivial, fun _ _ => trivial⟩
  rw [← rewrite_id (j := 0) t]
  exact ht.rewrite hcarries

theorem NamedBy.imp (ht : t.NamedBy P) (hPQ : ∀ x, P x → Q x) : t.NamedBy Q :=
  Respects.named ht hPQ

theorem NamedBy.abstractConst {name : String} {v : Variable} (ht : t.NamedBy P) (hv : P v.name)
    (h : t.abstractConst name v = .ok u) : u.NamedBy P := by
  refine Respects.abstractConst (d := .named P) (fun _ w => P w.name) (fun scope => ?_)
    (fun _ _ hw => hw) (fun _ _ v w _ hv hw => ?_) ht hv h
  · exact ⟨fun _ _ hv => respects_var.mpr hv, fun _ _ h => h, fun _ _ h => h, fun _ h => h⟩
  · show P w.name
    rw [name_of_shift hw]
    exact hv

theorem NamedBy.bind {names : List String} (ht : t.NamedBy P) (hnames : ∀ x ∈ names, P x)
    (h : t.bind names = .ok u) : u.NamedBy P := by
  obtain ⟨-, body, hbody, rfl⟩ := bind_eq_ok_iff.mp h
  obtain rfl := capture_atMost names t body hbody
  refine respects_abs.mpr ⟨fun v hv => hnames v.name ?_, ?_⟩
  · rw [← map_name_numbered names]
    exact List.mem_map_of_mem hv
  · refine Respects.rewrite ht ⟨fun inner v hv => respects_var.mpr ?_, fun _ _ h => h,
      fun _ _ h => h, fun _ h => h⟩
    show P (v.captured names inner.length).name
    rw [Variable.name_captured]
    exact hv

end Term

end IndexedLambda
