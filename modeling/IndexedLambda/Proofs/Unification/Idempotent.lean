import IndexedLambda.Proofs.Evaluation.Fuel
import IndexedLambda.Proofs.Unification.Symmetry
/-!
# Unification is idempotent

A second run on the same types goes another way than the first one. Where the first one has bound a
variable, the second one finds both sides in one class; where the first one has decomposed two types,
the second one decomposes the same two, because a representative that is not a variable stays what it
is. Either way it ends well and binds nothing.

The parts of a type are unified one after the other, and the second run comes to the first parts when
the bindings of the last ones have been made. So it is shown at once for all later contexts
(`Repeats`): classes only grow, and what has been put together stays together. Nor is there anything to
be written for a record that has not been written before, be it for the record or when it was bound.
-/

namespace IndexedLambda

open Relation

/-! ## Classes that have grown -/

/-- A map that keeps the bindings of another one puts together all that the other one does. -/
theorem ClassMap.finer_of_get? {α : Type} [Keyed α] [LawfulKeyed α] [DecidableEq α]
    {c d : ClassMap α} {rank rank' : α → Nat} (hc : c.Descends rank) (hd : d.Descends rank')
    (hkept : ∀ {key a}, c.get? key = some a → d.get? key = some a) : c.Finer d := by
  intro a
  induction a using hc.walk_induction with
  | unbound a ha => rw [find_of_next?_none ha]
  | bound a b hab ih =>
      obtain ⟨key, hkey, hget⟩ := next?_eq_some.mp hab
      have hab' : d.next? a = some b := next?_eq_some.mpr ⟨key, hkey, hkept hget⟩
      rw [find_of_next? hc hab, ih, find_of_next? hd hab']

theorem Grows.finer {R : Region} {c d : Classes} (h : Grows R c d) (hc : c.Acyclic) :
    c.Finer d := by
  have hd := h.acyclic hc
  obtain ⟨⟨rank, hrank⟩, ⟨krank, hkrank⟩⟩ := hc
  obtain ⟨⟨rank', hrank'⟩, ⟨krank', hkrank'⟩⟩ := hd
  exact ⟨ClassMap.finer_of_get? hrank.descends hrank'.descends h.get?_type,
    ClassMap.finer_of_get? hkrank.descends hkrank'.descends h.get?_kind⟩

namespace TypeContext

/-! ## Computations that need not be done again -/

/-- A context that comes later: the classes have grown, what is in them has been written, and if a
record is kept then one was kept before. -/
structure Later (c e : TypeContext) : Prop where
  grows : Grows .all c.known e.known
  written : e.known.types.Throughout Monotype.Legible
  traced : e.tracing = true → c.tracing = true

theorem Later.of_same {c e e' : TypeContext} (h : Later c e) (hknown : e'.known = e.known)
    (htracing : e'.tracing = e.tracing) : Later c e' :=
  ⟨by rw [hknown]; exact h.grows, by rw [hknown]; exact h.written, by rw [htracing]; exact h.traced⟩

/-- Once the first computation has ended well, the second one ends well and binds nothing, then and
at any later time. -/
def Repeats (x y : ContextM Status) : Prop :=
  ∀ c d, c.known.Acyclic → x c = .ok .ok d → Grows .all c.known d.known ∧ d.tracing = c.tracing ∧
    ∀ e, Later d e → ∃ e', y e = .ok .ok e' ∧ e'.known = e.known ∧ e'.tracing = e.tracing

namespace Repeats

variable {x y x' y' : ContextM Status}

theorem andThen (hx : Repeats x x') (hy : Repeats y y') :
    Repeats (andThen x y) (andThen x' y') := by
  intro c d hc hd
  obtain ⟨c₁, hc₁, hd⟩ := andThen_eq_ok.mp hd
  obtain ⟨hgrows, htracing, hfirst⟩ := hx c c₁ hc hc₁
  obtain ⟨hgrows', htracing', hsecond⟩ := hy c₁ d (hgrows.acyclic hc) hd
  refine ⟨hgrows.trans hgrows', htracing'.trans htracing, fun e he => ?_⟩
  obtain ⟨e₁, he₁, hknown₁, htracing₁⟩ := hfirst e
    ⟨hgrows'.trans he.grows, he.written, fun ht => htracing' ▸ he.traced ht⟩
  obtain ⟨e₂, he₂, hknown₂, htracing₂⟩ := hsecond e₁ (he.of_same hknown₁ htracing₁)
  exact ⟨e₂, andThen_eq_ok.mpr ⟨e₁, he₁, he₂⟩, hknown₂.trans hknown₁, htracing₂.trans htracing₁⟩

theorem pairwise {α : Type} {relate relate' : α → α → ContextM Status}
    (h : ∀ a b, Repeats (relate a b) (relate' a b)) (as bs : List α) :
    Repeats (pairwise relate as bs) (pairwise relate' as bs) := by
  have hnone : Repeats (return .ok) (return .ok) := by
    intro c d _ hd
    cases hd
    exact ⟨.refl, rfl, fun e _ => ⟨e, rfl, rfl, rfl⟩⟩
  induction as generalizing bs with
  | nil => exact hnone
  | cons a as ih =>
      cases bs with
      | nil => exact hnone
      | cons b bs =>
          rw [pairwise_cons, pairwise_cons]
          exact (h a b).andThen (ih bs)

end Repeats

variable {natives : InstructionSet} {n k : Nat}

theorem unifyKind_repeats (hnk : n ≤ k) (s t : Term) :
    Repeats (unifyKind natives n s t) (unifyKind natives k s t) := by
  intro c d hc hd
  have hgrows := grows_of_unifyKind hc hd
  have htracing : d.tracing = c.tracing :=
    (unifyKind_keeps (P := fun e => e.tracing = c.tracing)
      (fun e step h => (tracing_noted e step).trans h) (fun _ _ _ h => h) natives n s t).of_ok hd rfl
  refine ⟨hgrows, htracing, fun e he => ?_⟩
  have hfiner : c.known.Finer e.known := Grows.finer (hgrows.trans he.grows) hc
  have hsame : (e.findKind s).StrictEq (e.findKind t) → ∃ e', unifyKind natives k s t e = .ok .ok e' ∧
      e'.known = e.known ∧ e'.tracing = e.tracing := by
    intro hst
    obtain ⟨step, hrun⟩ := unifyKind_of_same natives k hst
    exact ⟨_, hrun, known_noted e step, tracing_noted e step⟩
  have hcase := kindCase natives n s t c
  rw [hd] at hcase
  cases hcase with
  | same step hst => exact hsame (hfiner.find_kind_strictEq hst)
  | bind v u step hmeets =>
      -- the two sides are in one class since then
      obtain ⟨hc', hjoins⟩ := hmeets.joins_kind hc
      have hlater := he.grows
      rw [known_withKind, known_noted] at hlater
      exact hsame (.of_eq ((Grows.finer hlater hc').kinds.find_eq (hmeets.find_eq hjoins)))
  | equal step hapart hconv =>
      -- neither side is a variable, and so the same two terms are compared again
      have hs : e.findKind s = c.findKind s := hfiner.find_kind_of_rigid hapart.left
      have ht : e.findKind t = c.findKind t := hfiner.find_kind_of_rigid hapart.right
      have hconv' : (e.findKind s).convertible natives k (e.findKind t) = .ok true := by
        rw [hs, ht]
        exact (Term.convertible_mono hnk _ _).ok hconv
      rw [← hs, ← ht] at hapart
      obtain ⟨e', hknown, htracing', hrun⟩ := unifyKind_of_apart natives k hapart
      rw [hconv'] at hrun
      exact ⟨e', hrun, hknown, htracing'⟩

theorem unifyParts_repeats (hnk : n ≤ k)
    (hunify : ∀ p q, Repeats (unify natives n p q) (unify natives k p q)) (a b : Monotype) :
    Repeats (unifyParts (unify natives n) (unifyKind natives n) a b)
      (unifyParts (unify natives k) (unifyKind natives k) a b) := by
  refine (Repeats.pairwise hunify _ _).andThen (Repeats.pairwise (fun i j => ?_) _ _)
  exact (unifyKind_repeats hnk i.1 j.1).andThen (hunify i.2 j.2)

theorem clashStatus_eq_none {a b : Monotype} (hname : a.headName = b.headName)
    (hparams : a.params.length = b.params.length)
    (hindex : (indexOf a).length = (indexOf b).length) : clashStatus a b = none := by
  simp [clashStatus, hname, hparams, hindex]

/-- A representative that could be written has one that can be. -/
theorem Later.legible_find {c e : TypeContext} (he : Later c e) (hfiner : c.known.Finer e.known)
    {m : Monotype} (hm : (c.find m).Legible) : (e.find m).Legible := by
  have hfind : e.find (c.find m) = e.find m := hfiner.types m
  rw [← hfind]
  exact throughout_find he.written hm

theorem unify_repeats (hnk : n ≤ k) (a b : Monotype) :
    Repeats (unify natives n a b) (unify natives k a b) := by
  induction n generalizing k a b with
  | zero => intro c d _ hd; cases hd
  | succ n ih =>
      obtain ⟨k, rfl⟩ : ∃ j, k = j + 1 := ⟨k - 1, by omega⟩
      have hnk' : n ≤ k := Nat.le_of_succ_le_succ hnk
      intro c d hc hd
      have hgrows := grows_of_unify hc hd
      have htracing : d.tracing = c.tracing :=
        (unify_keeps (P := fun e => e.tracing = c.tracing)
          (fun e step h => (tracing_noted e step).trans h) (fun _ _ _ h => h) (fun _ _ _ h => h) natives
          (n + 1) a b).of_ok hd rfl
      refine ⟨hgrows, htracing, fun e he => ?_⟩
      have hlater : Later c e :=
        ⟨hgrows.trans he.grows, he.written, fun ht => htracing ▸ he.traced ht⟩
      have hfiner : c.known.Finer e.known := Grows.finer hlater.grows hc
      have hshows {m : Monotype} (hm : c.Shows (c.find m)) : e.Shows (e.find m) :=
        fun ht => hlater.legible_find hfiner (hm (hlater.traced ht))
      have hsame : (e.find a).StrictEq (e.find b) → e.Shows (e.find a) → e.Shows (e.find b) →
          ∃ e', unify natives (k + 1) a b e = .ok .ok e' ∧ e'.known = e.known ∧
            e'.tracing = e.tracing := by
        intro hab ha hb
        obtain ⟨step, hrun⟩ := record_of_shows .identity "same representative" ha hb
        refine ⟨_, ?_, known_noted e step, tracing_noted e step⟩
        rw [unify_of_same natives hab, Stateful.bind_of_ok hrun, return_eq]
      have hcase := unifyCase natives n a b c
      rw [hd] at hcase
      generalize hrun : EStateM.Result.ok Status.ok d = run at hcase
      cases hcase with
      | same step hab _ ha hb => exact hsame (hfiner.find_strictEq hab) (hshows ha) (hshows hb)
      | inside v m step => cases hrun
      | illegible m f => cases hrun
      | bind v m step hmeets hinside _ hm =>
          cases hrun
          obtain ⟨ha, hb⟩ := hmeets.legible_iff.mp hm
          obtain ⟨hc', hjoins⟩ := hmeets.joins_type hc hinside
          have hgrows' := he.grows
          rw [known_withType, known_noted] at hgrows'
          exact hsame (.of_eq ((Grows.finer hgrows' hc').types.find_eq (hmeets.find_eq hjoins)))
            (hshows fun _ => ha) (hshows fun _ => hb)
      | clash status step _ _ hfailed => cases hrun; exact absurd rfl hfailed
      | parts step ha hb hname hparams hindex _ hashows hbshows =>
          -- neither representative is a variable, so the same two types are decomposed again
          have hea : e.find a = c.find a := hfiner.find_of_rigid ha
          have heb : e.find b = c.find b := hfiner.find_of_rigid hb
          by_cases hab : (e.find a).StrictEq (e.find b)
          · exact hsame hab (hshows hashows) (hshows hbshows)
          have hfit : clashStatus (e.find a) (e.find b) = none := by
            rw [hea, heb]
            exact clashStatus_eq_none hname hparams hindex
          obtain ⟨detail, hparts⟩ := unify_of_fit natives hab (hea ▸ ha) (heb ▸ hb) hfit
          obtain ⟨step', hrecord⟩ := record_of_shows .decompose detail (hshows hashows) (hshows hbshows)
          rw [hparts, Stateful.bind_of_ok hrecord, hea, heb]
          have hrepeats := unifyParts_repeats hnk' (fun p q => ih hnk' p q) (c.find a) (c.find b)
          obtain ⟨-, -, hagain⟩ := hrepeats (c.noted step) d (by rwa [known_noted]) hrun.symm
          obtain ⟨e', hrun', hknown, htracing'⟩ := hagain (e.noted step')
            (he.of_same (known_noted e step') (tracing_noted e step'))
          exact ⟨e', hrun', hknown.trans (known_noted e step'),
            htracing'.trans (tracing_noted e step')⟩

/-- **Unification is idempotent.** When it has ended well, unifying the same two types once more ends
well under every bound that is not smaller, and leaves all classes exactly as they are; so it does
whatever else has been done to the context in between, short of starting a record that was not kept
the first time. -/
theorem Reachable.unify_idempotent {allowed : Operation → Prop} {c d : TypeContext}
    (h : Reachable allowed c) {natives : InstructionSet} {n k : Nat} {a b : Monotype}
    (hok : unify natives n a b c = .ok .ok d) (hnk : n ≤ k) :
    (∃ e, unify natives k a b d = .ok .ok e ∧ e.classes = d.classes ∧ e.kinds = d.kinds) ∧
      ∀ d', ReflTransGen (Step fun _ => True) d d' → (d'.tracing = true → c.tracing = true) →
        ∃ e, unify natives k a b d' = .ok .ok e ∧ e.classes = d'.classes ∧ e.kinds = d'.kinds := by
  obtain ⟨hgrows, htracing, hagain⟩ := unify_repeats hnk a b c d h.acyclic hok
  have hwritten : d.known.types.Throughout Monotype.Legible :=
    (unify_keeps_legible n a b).of_ok hok h.legible
  have hlater : ∀ d', ReflTransGen (Step fun _ => True) d d' → (d'.tracing = true → c.tracing = true) →
      ∃ e, unify natives k a b d' = .ok .ok e ∧ e.classes = d'.classes ∧ e.kinds = d'.kinds := by
    intro d' hsteps htraced
    obtain ⟨e, he, hknown, -⟩ := hagain d' ⟨grows_of_steps (hgrows.acyclic h.acyclic) hsteps,
      legible_of_steps hwritten hsteps, fun ht => htracing ▸ htraced ht⟩
    exact ⟨e, he, congrArg Classes.types hknown, congrArg Classes.kinds hknown⟩
  exact ⟨hlater d .refl fun ht => htracing ▸ ht, hlater⟩

/-- `Vec (a -> a) i ((λx.x) k)` and `Vec ((b ->) c) k k`, where the second arrow is written as a plain
constant, are unified by binding `a`, `b` and `i` and by comparing the last two index terms. When
they are unified again, also after `c` has been bound, nothing is bound. -/
theorem unify_idempotent_of_instances :
    let natives : InstructionSet := fun _ _ => .fail none
    let nat : Monotype := .const (.plain "Nat")
    let a : Monotype := .var ⟨"a", 0⟩
    let b : Monotype := .var ⟨"b", 0⟩
    let c : Monotype := .var ⟨"c", 0⟩
    let k : Term := .const "k"
    let same : Term := .app (.abs [⟨"x", 1⟩] (.var ⟨"x", 1⟩)) k
    let left : Monotype := .inst (.plain "Vec") [.arrow a a] [(.var ⟨"i", 0⟩, nat), (same, nat)]
    let right : Monotype := .inst (.plain "Vec") [.app (.plain "->") [b, c]] [(k, nat), (k, nat)]
    let d := endOf (unify natives 20 left right (startingAt 0 0))
    let d' := Operation.run d (.unify ⟨natives, 20⟩ c (.list nat))
    Reachable (fun _ => True) (startingAt 0 0) ∧
      unify natives 20 left right (startingAt 0 0) = .ok .ok d ∧
      d.classes.size = 2 ∧ d.kinds.size = 1 ∧ d'.classes.size = 3 ∧
      (∃ e, unify natives 20 left right d = .ok .ok e ∧ e.classes = d.classes ∧ e.kinds = d.kinds) ∧
      ∃ e, unify natives 20 left right d' = .ok .ok e ∧ e.classes = d'.classes ∧
        e.kinds = d'.kinds := by
  intro natives nat a b c k same left right d d'
  have hc : Reachable (fun _ => True) (startingAt 0 0) := ⟨0, 0, .refl⟩
  have hok : unify natives 20 left right (startingAt 0 0) = .ok .ok d :=
    eq_ok_of_run' (by decide +kernel)
  have hsteps : ReflTransGen (Step fun _ => True) d d' := .single ⟨_, trivial, rfl⟩
  have huntraced : d'.tracing = false := by decide +kernel
  obtain ⟨hnow, hlater⟩ := Reachable.unify_idempotent hc hok (Nat.le_refl 20)
  exact ⟨hc, hok, by decide +kernel, by decide +kernel, by decide +kernel, hnow,
    hlater d' hsteps fun ht => absurd ht (ne_true_of_eq_false huntraced)⟩

end TypeContext

end IndexedLambda
