import IndexedLambda.Proofs.Evaluation.Fuel
import IndexedLambda.Proofs.Evaluation.Placeholder
import IndexedLambda.Proofs.Term.Alike
/-!
# When comparison of abstractions is extensional

Abstractions are compared on a placeholder. It is the same for every binder, so two binders cannot be
told apart, and the Church booleans are taken for equal. This module shows how far the comparison can
be trusted. If the results of applying both sides to the placeholder meet no further abstraction, at
the head or in the parts that are compared, then equal abstractions give equal results on every
constant.

The reason is that nothing but the filled placeholder changes: application gives the filled results with
the same fuel, and a comparison that meets no abstraction goes the same way on filled terms.
-/

namespace IndexedLambda

/-- The name does not occur, at an occurrence or as a binder. -/
def Discipline.mentionsNot (x : String) : Discipline where
  occurrence _ v := v.name ≠ x
  binders _ vs := ∀ v ∈ vs, v.name ≠ x
  arguments _ _ := True
  definitions _ := True

instance (x : String) : (Discipline.mentionsNot x).Decides where
  occurrence _ v := inferInstanceAs (Decidable (v.name ≠ x))
  binders _ vs := inferInstanceAs (Decidable (∀ v ∈ vs, v.name ≠ x))
  arguments _ _ := inferInstanceAs (Decidable True)
  definitions _ := inferInstanceAs (Decidable True)

/-- Sound, without instructions, and without a mention of the placeholder's name. -/
def Discipline.testable : Discipline :=
  Discipline.sound.and (Discipline.instructionFree.and (.mentionsNot Variable.placeholder.name))

instance : Discipline.testable.Decides :=
  inferInstanceAs (Discipline.sound.and
    (Discipline.instructionFree.and (.mentionsNot Variable.placeholder.name))).Decides

namespace Term

variable {natives : InstructionSet} {n : Nat} {c : String}

/-! ## One level of a comparison -/

/-- How two forced terms can be found equal. -/
inductive SameCase (natives : InstructionSet) (n : Nat) : Term → Term → Prop
  | abs {vs ws : List Variable} {b d left right : Term} :
      saturate natives .placeholder n vs b = .ok left →
      saturate natives .placeholder n ws d = .ok right →
      convertible natives n left right = .ok true → SameCase natives n (.abs vs b) (.abs ws d)
  | app {l r l' r' : Term} : convertible natives n l l' = .ok true →
      convertible natives n r r' = .ok true → SameCase natives n (.app l r) (.app l' r')
  | list {ts us : List Term} : allPaired (convertible natives n) ts us = .ok true →
      SameCase natives n (.list ts) (.list us)
  | instr {h k : InstructionHead} {ts us : List Term} : h.erased = k.erased →
      allPaired (convertible natives n) ts us = .ok true →
      SameCase natives n (.instr h ts) (.instr k us)
  | define {a b a' b' : Term} (form form' : LetForm) (x : String) :
      convertible natives n a a' = .ok true → convertible natives n b b' = .ok true →
      SameCase natives n (.define form x a b) (.define form' x a' b')
  | recur {ds es : List (String × Term)} {b b' : Term} :
      allPaired (fun d e => if d.1 = e.1 then convertible natives n d.2 e.2 else .ok false) ds es =
        .ok true →
      convertible natives n b b' = .ok true → SameCase natives n (.recur ds b) (.recur es b')
  | var (v : Variable) : SameCase natives n (.var v) (.var v)
  | const (x : String) : SameCase natives n (.const x) (.const x)

/-- A comparison that goes on only after a match succeeds when all its parts do. -/
theorem andAlso_eq_true {x y : Except Fault Bool} :
    (do if ← x then y else return false) = .ok true ↔ x = .ok true ∧ y = .ok true := by
  refine bind_eq_ok.trans ⟨?_, fun h => ⟨true, h.1, h.2⟩⟩
  rintro ⟨same, hx, hy⟩
  cases same with
  | true => exact ⟨hx, hy⟩
  | false => cases hy

theorem convertible_eq_true {t u : Term} : convertible natives (n + 1) t u = .ok true ↔
    ∃ t' u', force natives n t = .ok t' ∧ force natives n u = .ok u' ∧ SameCase natives n t' u' := by
  constructor
  · intro h
    rw [convertible] at h
    obtain ⟨t', ht, h⟩ := bind_eq_ok.mp h
    obtain ⟨u', hu, h⟩ := bind_eq_ok.mp h
    refine ⟨t', u', ht, hu, ?_⟩
    split at h
    case h_1 =>
      obtain ⟨left, hleft, h⟩ := bind_eq_ok.mp h
      obtain ⟨right, hright, h⟩ := bind_eq_ok.mp h
      exact .abs hleft hright h
    case h_2 =>
      obtain ⟨hl, hr⟩ := andAlso_eq_true.mp h
      exact .app hl hr
    case h_3 => exact .list h
    case h_4 =>
      split at h
      case isTrue hhead => exact .instr hhead h
      case isFalse => cases h
    case h_5 =>
      split at h
      case isTrue => cases h
      case isFalse hname =>
        obtain ⟨ha, hb⟩ := andAlso_eq_true.mp h
        exact not_ne_iff.mp hname ▸ .define _ _ _ ha hb
    case h_6 =>
      obtain ⟨hdefs, hb⟩ := andAlso_eq_true.mp h
      exact .recur hdefs hb
    case h_7 habs happ hlist hinstr hdefine hrecur =>
      cases strictEq_iff_alike.mp (of_decide_eq_true (Except.ok.inj h)) with
      | var v => exact .var v
      | const x => exact .const x
      | abs vs _ => exact absurd rfl (habs vs _ vs _ rfl)
      | app _ _ => exact absurd rfl (happ _ _ _ _ rfl)
      | list _ => exact absurd rfl (hlist _ _ rfl)
      | instr _ _ => exact absurd rfl (hinstr _ _ _ _ rfl)
      | define form x _ _ => exact absurd rfl (hdefine form x _ _ form x _ _ rfl)
      | recur _ _ _ => exact absurd rfl (hrecur _ _ _ _ rfl)
  · rintro ⟨t', u', ht, hu, hcase⟩
    rw [convertible]
    refine bind_eq_ok.mpr ⟨t', ht, bind_eq_ok.mpr ⟨u', hu, ?_⟩⟩
    cases hcase with
    | abs hleft hright h => exact bind_eq_ok.mpr ⟨_, hleft, bind_eq_ok.mpr ⟨_, hright, h⟩⟩
    | app hl hr => exact andAlso_eq_true.mpr ⟨hl, hr⟩
    | list h => exact h
    | instr hhead h => exact (if_pos hhead).trans h
    | define form form' x ha hb =>
        exact (if_neg (not_not_intro rfl)).trans (andAlso_eq_true.mpr ⟨ha, hb⟩)
    | recur hdefs hb => exact andAlso_eq_true.mpr ⟨hdefs, hb⟩
    | var v => exact congrArg Except.ok (decide_eq_true rfl)
    | const x => exact congrArg Except.ok (decide_eq_true rfl)

/-! ## Comparisons that meet no abstraction -/

/-- The parts that a comparison compares. -/
def parts : Term → List Term
  | .app l r => [l, r]
  | .list ts => ts
  | .instr _ ts => ts
  | .define _ _ a b => [a, b]
  | .recur defs b => b :: defs.map (·.2)
  | _ => []

/-- The forced form is not an abstraction, and neither are those of its parts, at any depth. -/
inductive FirstOrder (natives : InstructionSet) : Term → Prop
  | intro {n : Nat} {t t' : Term} : force natives n t = .ok t' → (∀ vs b, t' ≠ .abs vs b) →
      (∀ u ∈ t'.parts, FirstOrder natives u) → FirstOrder natives t

theorem FirstOrder.forced {t t' : Term} (ht : FirstOrder natives t) (h : force natives n t = .ok t') :
    (∀ vs b, t' ≠ .abs vs b) ∧ ∀ u ∈ t'.parts, FirstOrder natives u := by
  cases ht with
  | intro hforce hflat hparts =>
      obtain rfl := force_unique hforce h
      exact ⟨hflat, hparts⟩

theorem force_abs (vs : List Variable) (b : Term) :
    force natives (n + 1) (.abs vs b) = .ok (.abs vs b) := rfl

theorem FirstOrder.ne_abs {t : Term} (ht : FirstOrder natives t) (vs : List Variable) (b : Term) :
    t ≠ .abs vs b := by
  rintro rfl
  exact (ht.forced (force_abs (n := 0) vs b)).1 vs b rfl

theorem allPairs_map {α : Type} {compare : α → α → Except Fault Bool} {f : α → α} {as bs : List α}
    (h : ∀ a ∈ as, ∀ b ∈ bs, compare a b = .ok true → compare (f a) (f b) = .ok true)
    (hpairs : allPairs compare as bs = .ok true) :
    allPairs compare (as.map f) (bs.map f) = .ok true := by
  induction as generalizing bs with
  | nil =>
      cases bs with
      | nil => rfl
      | cons b bs => cases hpairs
  | cons a as ih =>
      cases bs with
      | nil => cases hpairs
      | cons b bs =>
          rw [allPairs, andAlso_eq_true] at hpairs
          rw [List.map_cons, List.map_cons, allPairs, andAlso_eq_true]
          exact ⟨h a (by simp) b (by simp) hpairs.1,
            ih (fun a' ha b' hb => h a' (by simp [ha]) b' (by simp [hb])) hpairs.2⟩

theorem allPaired_map {α : Type} {compare : α → α → Except Fault Bool} {f : α → α} {as bs : List α}
    (h : ∀ a ∈ as, ∀ b ∈ bs, compare a b = .ok true → compare (f a) (f b) = .ok true)
    (hpairs : allPaired compare as bs = .ok true) :
    allPaired compare (as.map f) (bs.map f) = .ok true := by
  unfold allPaired at hpairs ⊢
  split at hpairs
  case isTrue hlength =>
    rw [if_pos (by simpa using hlength)]
    exact allPairs_map h hpairs
  case isFalse => cases hpairs

/-- Two terms that are found equal without a look at an abstraction are found equal when the placeholder
is filled. -/
theorem convertible_fill {t u : Term} (hfirst : FirstOrder natives t) (ht : t.Respects .fillable [])
    (hu : u.Respects .fillable []) (h : convertible natives n t u = .ok true) :
    convertible natives n (t.fill c) (u.fill c) = .ok true := by
  induction n generalizing t u with
  | zero => cases h
  | succ n ih =>
      obtain ⟨t', u', ht', hu', hcase⟩ := convertible_eq_true.mp h
      obtain ⟨hflat, hparts⟩ := hfirst.forced ht'
      have hkeeps := (evaluable_fillable natives).preserves n
      have hfill := fillStep natives c n
      have ht'' := hkeeps.force ⟨rfl, rfl⟩ ht ht'
      have hu'' := hkeeps.force ⟨rfl, rfl⟩ hu hu'
      refine convertible_eq_true.mpr ⟨_, _, hfill.force ht t' ht', hfill.force hu u' hu', ?_⟩
      cases hcase with
      | abs => exact absurd rfl (hflat _ _)
      | instr => exact absurd ht'' not_respects_instr
      | var v =>
          -- the same occurrence on both sides, so both are filled or none is
          rcases fill_var_cases (c := c) v with hv | hv
          · rw [hv]; exact .const c
          · rw [hv]; exact .var v
      | const x => rw [fill_const]; exact .const x
      | app hl hr =>
          obtain ⟨hl₁, hr₁⟩ := respects_app.mp ht''
          obtain ⟨hl₂, hr₂⟩ := respects_app.mp hu''
          rw [fill_app, fill_app]
          exact .app (ih (hparts _ (by simp [parts])) hl₁ hl₂ hl)
            (ih (hparts _ (by simp [parts])) hr₁ hr₂ hr)
      | define form form' x ha hb =>
          obtain ⟨ha₁, hb₁⟩ := respects_define.mp ht''
          obtain ⟨ha₂, hb₂⟩ := respects_define.mp hu''
          rw [fill_define, fill_define]
          exact .define form form' x (ih (hparts _ (by simp [parts])) ha₁ ha₂ ha)
            (ih (hparts _ (by simp [parts])) hb₁ hb₂ hb)
      | list hpairs =>
          rw [fill_list, fill_list]
          exact .list (allPaired_map (fun a ha b hb => ih (hparts a ha) (respects_list.mp ht'' a ha)
            (respects_list.mp hu'' b hb)) hpairs)
      | recur hdefs hb =>
          obtain ⟨-, hds, hb₁⟩ := respects_recur.mp ht''
          obtain ⟨-, hes, hb₂⟩ := respects_recur.mp hu''
          rw [fill_recur, fill_recur]
          refine .recur (allPaired_map (fun d hd e he hsame => ?_) hdefs)
            (ih (hparts _ (by simp [parts])) hb₁ hb₂ hb)
          split at hsame
          case isTrue hname =>
            rw [if_pos hname]
            refine ih (hparts d.2 ?_) (hds d hd) (hes e he) hsame
            exact List.mem_cons_of_mem _ (List.mem_map_of_mem hd)
          case isFalse => cases hsame

/-! ## Abstractions -/

theorem Respects.fillable {scope : List String} {t : Term} (ht : t.Respects .testable scope) :
    t.Respects .fillable scope :=
  ht.imp ⟨fun _ _ h => ⟨h.1, h.2.1, trivial⟩, fun _ _ h => h, fun _ _ h => h, fun _ h => h⟩

theorem Respects.fill_eq_self {scope : List String} {t : Term} (ht : t.Respects .testable scope) :
    t.fill c = t :=
  (ht.rewrite_congr fun _ _ hv => if_neg hv.2.2).trans (rewrite_id t)

/-- If one application gives no abstraction, saturating is that application. -/
theorem saturate_of_apply {m : Nat} {placeholder : Variable} {vs : List Variable} {b left result : Term}
    (happly : apply natives m vs b (.var placeholder) = .ok left) (hflat : ∀ us d, left ≠ .abs us d)
    (h : saturate natives placeholder n vs b = .ok result) : result = left := by
  cases n with
  | zero => cases h
  | succ n =>
      rw [saturate] at h
      obtain ⟨t, ht, h⟩ := bind_eq_ok.mp h
      obtain rfl := apply_unique ht happly
      cases t with
      | abs us d => exact absurd rfl (hflat us d)
      | _ => cases h; rfl

/-- Abstractions that give no abstraction on the placeholder are compared by what they give. -/
theorem convertible_of_flat {k : Nat} {vs ws : List Variable} {b d left right : Term}
    (hleft : apply natives k vs b (.var .placeholder) = .ok left)
    (hright : apply natives k ws d (.var .placeholder) = .ok right)
    (hl : ∀ us e, left ≠ .abs us e) (hr : ∀ us e, right ≠ .abs us e)
    (h : convertible natives n (.abs vs b) (.abs ws d) = .ok true) :
    ∃ m, convertible natives m left right = .ok true := by
  cases n with
  | zero => cases h
  | succ n =>
      obtain ⟨t', u', ht', hu', hcase⟩ := convertible_eq_true.mp h
      obtain rfl := force_unique ht' (force_abs (n := 0) vs b)
      obtain rfl := force_unique hu' (force_abs (n := 0) ws d)
      cases hcase with
      | abs hleft' hright' hsame =>
          rw [saturate_of_apply hleft hl hleft', saturate_of_apply hright hr hright'] at hsame
          exact ⟨n, hsame⟩

/-- Application to a constant gives what application to the placeholder gives, filled. -/
theorem apply_const {vs : List Variable} {b left : Term} (hf : (abs vs b).Respects .testable [])
    (h : apply natives n vs b (.var .placeholder) = .ok left) :
    apply natives n vs b (.const c) = .ok (left.fill c) := by
  have hfill := (fillStep natives c n).apply hf.fillable (var_fillable _) left h
  have hbody : b.fill c = b := by
    have hself := hf.fill_eq_self (c := c)
    rw [fill_abs] at hself
    exact (Term.abs.inj hself).2
  rwa [hbody, fill_placeholder rfl] at hfill

/-- **Comparison is extensional on first-order results.** Let two abstractions without instructions
be found equal, neither of them with a mention of the placeholder's name. If applying them to the
placeholder gives no abstraction, and for one of them none further inside, then on every constant both
give a result and the results are found equal. -/
theorem convertible_extensional {natives : InstructionSet} {vs ws : List Variable}
    {b d left right : Term} {n k : Nat} (hf : (abs vs b).Respects .testable [])
    (hg : (abs ws d).Respects .testable [])
    (hleft : apply natives k vs b (.var .placeholder) = .ok left)
    (hright : apply natives k ws d (.var .placeholder) = .ok right)
    (hfirst : FirstOrder natives left) (hflat : ∀ us e, right ≠ .abs us e)
    (h : convertible natives n (.abs vs b) (.abs ws d) = .ok true) (c : String) :
    ∃ m fc gc, apply natives m vs b (.const c) = .ok fc ∧ apply natives m ws d (.const c) = .ok gc ∧
      convertible natives m fc gc = .ok true := by
  obtain ⟨m, hsame⟩ := convertible_of_flat hleft hright hfirst.ne_abs hflat h
  have hkeeps := (evaluable_fillable natives).preserves k
  have hl := hkeeps.apply ⟨rfl, rfl⟩ hf.fillable (var_fillable _) hleft
  have hr := hkeeps.apply ⟨rfl, rfl⟩ hg.fillable (var_fillable _) hright
  -- one bound for the two applications and the comparison
  exact ⟨max k m, left.fill c, right.fill c,
    (apply_mono (Nat.le_max_left k m) _ _ _).ok (apply_const hf hleft),
    (apply_mono (Nat.le_max_left k m) _ _ _).ok (apply_const hg hright),
    (convertible_mono (Nat.le_max_right k m) _ _).ok (convertible_fill hfirst hl hr hsame)⟩

/-- `λx. k ((λz. z) x)` and `λy. k y` are found equal, and so are their results on `c`. -/
theorem convertible_extensional_of_redex :
    let f := Term.app (.const "k") (.app (.abs [⟨"z", 1⟩] (.var ⟨"z", 1⟩)) (.var ⟨"x", 1⟩))
    let g := Term.app (.const "k") (.var ⟨"y", 1⟩)
    convertible Stock.natives 20 (.abs [⟨"x", 1⟩] f) (.abs [⟨"y", 1⟩] g) = .ok true ∧
      ∃ m fc gc, apply Stock.natives m [⟨"x", 1⟩] f (.const "c") = .ok fc ∧
        apply Stock.natives m [⟨"y", 1⟩] g (.const "c") = .ok gc ∧
        convertible Stock.natives m fc gc = .ok true := by
  intro f g
  have hsame : convertible Stock.natives 20 (.abs [⟨"x", 1⟩] f) (.abs [⟨"y", 1⟩] g) = .ok true := rfl
  have hleft : apply Stock.natives 20 [⟨"x", 1⟩] f (.var .placeholder) = .ok (.app (.const "k")
    (.app (.abs [⟨"z", 1⟩] (.var ⟨"z", 1⟩)) (.var ⟨"_", 1⟩))) := rfl
  have hright : apply Stock.natives 20 [⟨"y", 1⟩] g (.var .placeholder) = .ok (.app (.const "k")
    (.var ⟨"_", 1⟩)) := rfl
  have hconst : FirstOrder Stock.natives (.const "k") := .intro (n := 1) rfl nofun nofun
  have hredex : FirstOrder Stock.natives (.app (.abs [⟨"z", 1⟩] (.var ⟨"z", 1⟩)) (.var ⟨"_", 1⟩)) := by
    have hforce : force Stock.natives 20 (.app (.abs [⟨"z", 1⟩] (.var ⟨"z", 1⟩)) (.var ⟨"_", 1⟩)) =
      .ok (.var ⟨"_", 1⟩) := rfl
    exact .intro hforce nofun nofun
  have hfirst : FirstOrder Stock.natives (.app (.const "k")
      (.app (.abs [⟨"z", 1⟩] (.var ⟨"z", 1⟩)) (.var ⟨"_", 1⟩))) :=
    .intro (n := 20) rfl nofun (by simpa [parts] using ⟨hconst, hredex⟩)
  exact ⟨hsame, convertible_extensional (by decide) (by decide) hleft hright hfirst nofun hsame "c"⟩

/-- The Church booleans are found equal, since both give the placeholder when they are applied to it
twice. On a constant they give the abstractions `λf. c` and `λf. f`, and these are found to differ. -/
theorem convertible_truth_falsity :
    let onTrue := abs [⟨"f", 1⟩] (.const "c")
    let onFalse := abs [⟨"f", 1⟩] (.var ⟨"f", 1⟩)
    convertible Stock.natives 20 Combinator.truth Combinator.falsity = .ok true ∧
      apply Stock.natives 20 [⟨"t", 2⟩, ⟨"f", 1⟩] (.var ⟨"t", 2⟩) (.const "c") = .ok onTrue ∧
      apply Stock.natives 20 [⟨"t", 2⟩, ⟨"f", 1⟩] (.var ⟨"f", 1⟩) (.const "c") = .ok onFalse ∧
      convertible Stock.natives 20 onTrue onFalse = .ok false :=
  ⟨rfl, rfl, rfl, rfl⟩

end Term

end IndexedLambda
