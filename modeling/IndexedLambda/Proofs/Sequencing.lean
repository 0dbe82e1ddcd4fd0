import IndexedLambda.Fault
/-!
# Computations in sequence

A computation may fail, and it may carry a state that it leaves behind however it ends. The lemmas
here take sequences of such computations apart, for any kind of failure and any state.

`Keeps` says that a computation keeps a property of its state whatever its end. It goes through
sequences, handlers and loops, so the invariant of a whole operation follows from those of its steps.
-/

namespace IndexedLambda

/-- A sequence ends well when both of its parts do. -/
theorem bind_eq_ok {ε α β : Type} {x : Except ε α} {f : α → Except ε β} {b : β} :
    (x >>= f) = .ok b ↔ ∃ a, x = .ok a ∧ f a = .ok b := by
  cases x with
  | error e => simp [bind, Except.bind]
  | ok a => simp [bind, Except.bind]

theorem bind_eq_error {ε α β : Type} {x : Except ε α} {f : α → Except ε β} {e : ε} :
    (x >>= f) = .error e ↔ x = .error e ∨ ∃ a, x = .ok a ∧ f a = .error e := by
  cases x with
  | error e => simp [bind, Except.bind]
  | ok a => simp [bind, Except.bind]

/-- A loop over a list ends well when it does on every element. -/
theorem exists_mapM_eq_ok {ε α β : Type} {f : α → Except ε β} {as : List α} :
    (∃ bs, as.mapM f = .ok bs) ↔ ∀ a ∈ as, ∃ b, f a = .ok b := by
  induction as with
  | nil => simp [pure, Except.pure]
  | cons a as ih =>
      rw [List.mapM_cons, List.forall_mem_cons, ← ih]
      constructor
      · rintro ⟨bs, h⟩
        obtain ⟨b, hb, h⟩ := bind_eq_ok.mp h
        obtain ⟨bs', hbs', -⟩ := bind_eq_ok.mp h
        exact ⟨⟨b, hb⟩, bs', hbs'⟩
      · rintro ⟨⟨b, hb⟩, bs, hbs⟩
        exact ⟨b :: bs, bind_eq_ok.mpr ⟨b, hb, bind_eq_ok.mpr ⟨bs, hbs, rfl⟩⟩⟩

/-! ## With a state -/

namespace Stateful

variable {ε σ α β : Type} {x : EStateM ε σ α} {f : α → EStateM ε σ β} {s s₁ : σ}

theorem get_then (f : σ → EStateM ε σ α) (s : σ) : ((get : EStateM ε σ σ) >>= f) s = f s s := rfl

theorem bind_of_ok {a : α} (h : x s = .ok a s₁) : (x >>= f) s = f a s₁ := by
  show EStateM.bind x f s = _
  unfold EStateM.bind
  rw [h]

theorem bind_of_error {e : ε} (h : x s = .error e s₁) : (x >>= f) s = .error e s₁ := by
  show EStateM.bind x f s = _
  unfold EStateM.bind
  rw [h]

theorem bind_eq_ok {b : β} {s' : σ} :
    (x >>= f) s = .ok b s' ↔ ∃ a s₁, x s = .ok a s₁ ∧ f a s₁ = .ok b s' := by
  show EStateM.bind x f s = _ ↔ _
  unfold EStateM.bind
  cases hx : x s with
  | ok a s₁ =>
      constructor
      · exact fun h => ⟨a, s₁, rfl, h⟩
      · rintro ⟨_, _, ⟨⟩, h⟩
        exact h
  | error e s₁ => simp

theorem bind_eq_error {e : ε} {s' : σ} : (x >>= f) s = .error e s' ↔
    x s = .error e s' ∨ ∃ a s₁, x s = .ok a s₁ ∧ f a s₁ = .error e s' := by
  show EStateM.bind x f s = _ ↔ _
  unfold EStateM.bind
  cases hx : x s with
  | ok a s₁ =>
      constructor
      · exact fun h => .inr ⟨a, s₁, rfl, h⟩
      · rintro (⟨⟨⟩⟩ | ⟨_, _, ⟨⟩, h⟩)
        exact h
  | error e s₁ => simp

theorem ofExcept_eq_ok {x : Except Fault α} {a : α} :
    ofExcept x s = .ok a s₁ ↔ x = .ok a ∧ s = s₁ := by
  cases x with
  | ok b =>
      show EStateM.Result.ok b s = .ok a s₁ ↔ _
      simp
  | error f =>
      show EStateM.Result.error f s = .ok a s₁ ↔ _
      simp

theorem ofExcept_error {x : Except Fault α} {f : Fault} (h : x = .error f) (s : σ) :
    ofExcept x s = .error f s := by
  rw [h]
  rfl

end Stateful

/-- The state in which a computation ended, well or badly. -/
def endOf {ε σ α : Type} : EStateM.Result ε σ α → σ
  | .ok _ s => s
  | .error _ s => s

@[simp] theorem endOf_ok {ε σ α : Type} (a : α) (s : σ) :
    endOf (.ok a s : EStateM.Result ε σ α) = s := rfl

@[simp] theorem endOf_error {ε σ α : Type} (e : ε) (s : σ) :
    endOf (.error e s : EStateM.Result ε σ α) = s := rfl

/-- A run that gives an answer gives it in the state in which it ends. -/
theorem eq_ok_of_run' {ε σ α : Type} {x : EStateM ε σ α} {a : α} {s : σ}
    (h : x.run' s = some a) : x s = .ok a (endOf (x s)) := by
  unfold EStateM.run' EStateM.run at h
  cases hx : x s with
  | ok b s' =>
      rw [hx] at h
      rw [← Option.some.inj h]
      rfl
  | error e s' =>
      rw [hx] at h
      cases h

/-- Whatever holds before the computation holds after it, however it ends. -/
def Keeps {ε σ α : Type} (P : σ → Prop) (x : EStateM ε σ α) : Prop := ∀ s, P s → P (endOf (x s))

namespace Keeps

variable {ε σ α β : Type} {P : σ → Prop}

theorem pure (a : α) : Keeps P (Pure.pure a : EStateM ε σ α) := fun _ hs => hs

theorem get : Keeps P (MonadState.get : EStateM ε σ σ) := fun _ hs => hs

theorem throw (e : ε) : Keeps P (MonadExcept.throw e : EStateM ε σ α) := fun _ hs => hs

theorem ofExcept (x : Except Fault α) : Keeps P (IndexedLambda.ofExcept x) := by
  cases x with
  | ok a => exact .pure a
  | error f => exact .throw f

theorem bind {x : EStateM ε σ α} {f : α → EStateM ε σ β} (hx : Keeps P x)
    (hf : ∀ a, Keeps P (f a)) : Keeps P (x >>= f) := by
  intro s hs
  have hmid := hx s hs
  cases hr : x s with
  | error e s' =>
      rw [Stateful.bind_of_error hr]
      rwa [hr] at hmid
  | ok a s' =>
      rw [Stateful.bind_of_ok hr]
      rw [hr] at hmid
      exact hf a s' hmid

theorem tryCatch {x : EStateM ε σ α} {handle : ε → EStateM ε σ α} (hx : Keeps P x)
    (hhandle : ∀ e, Keeps P (handle e)) : Keeps P (MonadExcept.tryCatch x handle) := by
  intro s hs
  have hmid := hx s hs
  show P (endOf (EStateM.tryCatch x handle s))
  unfold EStateM.tryCatch
  cases hr : x s with
  | error e s' =>
      rw [hr] at hmid
      exact hhandle e s' hmid
  | ok a s' => rwa [hr] at hmid

theorem mapM {f : α → EStateM ε σ β} (h : ∀ a, Keeps P (f a)) (as : List α) :
    Keeps P (as.mapM f) := by
  induction as with
  | nil => exact .pure _
  | cons a as ih =>
      rw [List.mapM_cons]
      exact .bind (h a) fun b => .bind ih fun bs => .pure _

theorem foldlM {f : β → α → EStateM ε σ β} (h : ∀ b a, Keeps P (f b a)) (as : List α) (b : β) :
    Keeps P (as.foldlM f b) := by
  induction as generalizing b with
  | nil => exact .pure b
  | cons a as ih =>
      rw [List.foldlM_cons]
      exact .bind (h b a) ih

/-- A computation that ended well. -/
theorem of_ok {x : EStateM ε σ α} (hx : Keeps P x) {a : α} {s s' : σ} (h : x s = .ok a s')
    (hs : P s) : P s' := by
  have hend := hx s hs
  rwa [h] at hend

theorem of_error {x : EStateM ε σ α} (hx : Keeps P x) {e : ε} {s s' : σ} (h : x s = .error e s')
    (hs : P s) : P s' := by
  have hend := hx s hs
  rwa [h] at hend

end Keeps

end IndexedLambda
