import Mathlib.Tactic.Common

/-!
# Runs of a stateful computation that may fail

`EStateM ε σ` keeps the state when a computation fails, which is what a program does that reports an
error by value and leaves its object as it stands. A run of `m` from `s` is the result `m s`. The
lemmas here take a run of a sequence apart into runs of its parts, so that a proof about a program
never unfolds the monad.

`Simulates` compares two computations step by step: the left one may give up early, with an error of
a named kind, and otherwise both return related values in related states or both fail.
-/

namespace Run

open EStateM (Result)

variable {ε σ α β : Type}

@[simp] theorem pure_apply (a : α) (s : σ) : (pure a : EStateM ε σ α) s = .ok a s := rfl

@[simp] theorem throw_apply (e : ε) (s : σ) : (throw e : EStateM ε σ α) s = .error e s := rfl

@[simp] theorem get_apply (s : σ) : (get : EStateM ε σ σ) s = .ok s s := rfl

@[simp] theorem set_apply (s s' : σ) : (set s' : EStateM ε σ PUnit) s = .ok ⟨⟩ s' := rfl

@[simp] theorem modify_apply (f : σ → σ) (s : σ) :
    (modify f : EStateM ε σ PUnit) s = .ok ⟨⟩ (f s) := rfl

theorem bind_apply (m : EStateM ε σ α) (f : α → EStateM ε σ β) (s : σ) :
    (m >>= f) s = match m s with
      | .ok a s₁ => f a s₁
      | .error e s₁ => .error e s₁ := rfl

theorem bind_of_ok {m : EStateM ε σ α} {s s₁ : σ} {a : α} (h : m s = .ok a s₁)
    (f : α → EStateM ε σ β) :
    (m >>= f) s = f a s₁ := by
  rw [bind_apply, h]

theorem bind_of_error {m : EStateM ε σ α} {s s₁ : σ} {e : ε} (h : m s = .error e s₁)
    (f : α → EStateM ε σ β) : (m >>= f) s = .error e s₁ := by
  rw [bind_apply, h]

/-- A sequence returns exactly when its first part returns and the second part does from there. -/
theorem bind_eq_ok {m : EStateM ε σ α} {f : α → EStateM ε σ β} {s s' : σ} {b : β} :
    (m >>= f) s = .ok b s' ↔ ∃ a s₁, m s = .ok a s₁ ∧ f a s₁ = .ok b s' := by
  rw [bind_apply]
  cases h : m s with
  | ok a s₁ =>
    constructor
    · intro hf
      exact ⟨a, s₁, rfl, hf⟩
    · rintro ⟨a', s₁', heq, hf⟩
      cases heq
      exact hf
  | error e s₁ => simp

/-- A sequence fails exactly when its first part fails, or returns and the second part fails. -/
theorem bind_eq_error {m : EStateM ε σ α} {f : α → EStateM ε σ β} {s s' : σ} {e : ε} :
    (m >>= f) s = .error e s' ↔
      m s = .error e s' ∨ ∃ a s₁, m s = .ok a s₁ ∧ f a s₁ = .error e s' := by
  rw [bind_apply]
  cases h : m s with
  | ok a s₁ =>
    constructor
    · intro hf
      exact .inr ⟨a, s₁, rfl, hf⟩
    · rintro (heq | ⟨a', s₁', heq, hf⟩)
      · cases heq
      · cases heq
        exact hf
  | error e' s₁ => simp

theorem ite_apply {c : Prop} [Decidable c] (m n : EStateM ε σ α) (s : σ) :
    (if c then m else n) s = if c then m s else n s := by
  split <;> rfl

theorem ite_eq_ok {c : Prop} [Decidable c] {m n : EStateM ε σ α} {s s' : σ} {a : α} :
    (if c then m else n) s = .ok a s' ↔ (c ∧ m s = .ok a s') ∨ (¬ c ∧ n s = .ok a s') := by
  split <;> simp [*]

/-- Change the error of a failing computation; its state stays. -/
def mapError (f : ε → ε) (m : EStateM ε σ α) : EStateM ε σ α := fun s =>
  match m s with
  | .ok a s' => .ok a s'
  | .error e s' => .error (f e) s'

theorem mapError_of_ok {f : ε → ε} {m : EStateM ε σ α} {s s' : σ} {a : α} (h : m s = .ok a s') :
    mapError f m s = .ok a s' := by
  rw [mapError, h]

theorem mapError_of_error {f : ε → ε} {m : EStateM ε σ α} {s s' : σ} {e : ε}
    (h : m s = .error e s') :
    mapError f m s = .error (f e) s' := by
  rw [mapError, h]

theorem mapError_eq_ok {f : ε → ε} {m : EStateM ε σ α} {s s' : σ} {a : α} :
    mapError f m s = .ok a s' ↔ m s = .ok a s' := by
  unfold mapError
  cases m s <;> simp

/-! ### Simulation up to an early failure -/

section Simulation

variable {τ γ δ : Type} (excused : ε → Prop) (R : σ → τ → Prop)

/-- The left result agrees with the right one, unless the left one failed with an `excused`
error. -/
def Agrees (rel : α → β → Prop) : Result ε σ α → Result ε τ β → Prop
  | .ok a s, .ok b t => rel a b ∧ R s t
  | .error e _, .ok _ _ => excused e
  | .error _ _, .error _ _ => True
  | .ok _ _, .error _ _ => False

/-- Runs from related states agree. -/
def Simulates (rel : α → β → Prop) (m : EStateM ε σ α) (n : EStateM ε τ β) : Prop :=
  ∀ s t, R s t → Agrees excused R rel (m s) (n t)

variable {excused R}

theorem Agrees.ok_left {rel : α → β → Prop} {a : α} {s : σ} {y : Result ε τ β}
    (h : Agrees excused R rel (.ok a s) y) : ∃ b t, y = .ok b t ∧ rel a b ∧ R s t := by
  cases y with
  | ok b t => exact ⟨b, t, rfl, h⟩
  | error e t => exact h.elim

theorem agrees_bind {rel : α → β → Prop} {rel' : γ → δ → Prop} {m : EStateM ε σ α}
    {n : EStateM ε τ β} {f : α → EStateM ε σ γ} {g : β → EStateM ε τ δ} {s : σ} {t : τ}
    (hm : Agrees excused R rel (m s) (n t))
    (hf : ∀ a b s₁ t₁, rel a b → R s₁ t₁ → Agrees excused R rel' (f a s₁) (g b t₁)) :
    Agrees excused R rel' ((m >>= f) s) ((n >>= g) t) := by
  rw [bind_apply, bind_apply]
  cases hx : m s with
  | ok a s₁ =>
    cases hy : n t with
    | ok b t₁ =>
      rw [hx, hy] at hm
      exact hf a b s₁ t₁ hm.1 hm.2
    | error e t₁ =>
      rw [hx, hy] at hm
      exact hm.elim
  | error e s₁ =>
    cases hy : n t with
    | ok b t₁ =>
      rw [hx, hy] at hm
      -- the left run gave up, whatever the right one goes on to do
      show Agrees excused R rel' (.error e s₁) (g b t₁)
      cases g b t₁ with
      | ok d t₂ => exact hm
      | error e' t₂ => trivial
    | error e' t₁ => trivial

theorem Simulates.bind {rel : α → β → Prop} {rel' : γ → δ → Prop} {m : EStateM ε σ α}
    {n : EStateM ε τ β} {f : α → EStateM ε σ γ} {g : β → EStateM ε τ δ}
    (hm : Simulates excused R rel m n)
    (hf : ∀ a b, rel a b → Simulates excused R rel' (f a) (g b)) :
    Simulates excused R rel' (m >>= f) (n >>= g) :=
  fun s t hR => agrees_bind (hm s t hR) fun a b s₁ t₁ hab hR₁ => hf a b hab s₁ t₁ hR₁

theorem Simulates.pure {rel : α → β → Prop} {a : α} {b : β} (h : rel a b) :
    Simulates excused R rel (Pure.pure a) (Pure.pure b) :=
  fun _ _ hR => ⟨h, hR⟩

theorem Simulates.throw {rel : α → β → Prop} (e e' : ε) :
    Simulates excused R rel (MonadExcept.throw e : EStateM ε σ α)
      (MonadExcept.throw e' : EStateM ε τ β) :=
  fun _ _ _ => trivial

theorem Simulates.mapError
    {rel : α → β → Prop} {f g : ε → ε} {m : EStateM ε σ α} {n : EStateM ε τ β}
    (hf : ∀ e, excused e → excused (f e)) (h : Simulates excused R rel m n) :
    Simulates excused R rel (Run.mapError f m) (Run.mapError g n) := by
  intro s t hR
  have h := h s t hR
  unfold Run.mapError
  cases hx : m s with
  | ok a s₁ =>
    cases hy : n t with
    | ok b t₁ => rwa [hx, hy] at h
    | error e t₁ =>
      rw [hx, hy] at h
      exact h.elim
  | error e s₁ =>
    cases hy : n t with
    | ok b t₁ =>
      rw [hx, hy] at h
      exact hf e h
    | error e' t₁ => trivial

theorem Simulates.ite {rel : α → β → Prop} {c d : Prop} [Decidable c] [Decidable d] (hcd : c ↔ d)
    {m₁ m₂ : EStateM ε σ α} {n₁ n₂ : EStateM ε τ β} (h₁ : c → Simulates excused R rel m₁ n₁)
    (h₂ : ¬ c → Simulates excused R rel m₂ n₂) :
    Simulates excused R rel (if c then m₁ else m₂) (if d then n₁ else n₂) := by
  by_cases hc : c
  · rw [if_pos hc, if_pos (hcd.1 hc)]
    exact h₁ hc
  · rw [if_neg hc, if_neg fun hd => hc (hcd.2 hd)]
    exact h₂ hc

end Simulation

/-! ### Runs that return exactly if -/

/-- The run returns exactly if `p`, and then it leaves a state that satisfies `Q`. -/
structure Settles (m : EStateM ε σ α) (s : σ) (p : Prop) (Q : σ → Prop) : Prop where
  returns : p → ∃ a s', m s = .ok a s' ∧ Q s'
  fails : ¬ p → ∃ e s', m s = .error e s'

namespace Settles

variable {m : EStateM ε σ α} {n : EStateM ε σ β} {s s' : σ} {a : α} {p q : Prop} {P Q : σ → Prop}

theorem of_ok (h : m s = .ok a s') (hQ : Q s') : Settles m s True Q where
  returns _ := ⟨a, s', h, hQ⟩
  fails h := absurd trivial h

theorem of_error {e : ε} (h : m s = .error e s') : Settles m s False Q where
  returns h := h.elim
  fails _ := ⟨e, s', h⟩

theorem congr (h : Settles m s p P) (hpq : p ↔ q) (hPQ : ∀ s', P s' → Q s') : Settles m s q Q where
  returns hq := by
    obtain ⟨a, s', hrun, hP⟩ := h.returns (hpq.2 hq)
    exact ⟨a, s', hrun, hPQ s' hP⟩
  fails hq := h.fails (mt hpq.1 hq)

/-- The second part runs wherever the first one has left the state. -/
theorem seq (hm : Settles m s p P) (hn : ∀ s', P s' → Settles n s' q Q) :
    Settles (m >>= fun _ => n) s (p ∧ q) Q where
  returns := by
    rintro ⟨hp, hq⟩
    obtain ⟨a, s₁, hrun, hP⟩ := hm.returns hp
    obtain ⟨b, s', hrun', hQ⟩ := (hn s₁ hP).returns hq
    exact ⟨b, s', (bind_of_ok hrun _).trans hrun', hQ⟩
  fails := by
    intro hpq
    by_cases hp : p
    · obtain ⟨a, s₁, hrun, hP⟩ := hm.returns hp
      obtain ⟨e, s', hrun'⟩ := (hn s₁ hP).fails fun hq => hpq ⟨hp, hq⟩
      exact ⟨e, s', (bind_of_ok hrun _).trans hrun'⟩
    · obtain ⟨e, s', hrun⟩ := hm.fails hp
      exact ⟨e, s', bind_of_error hrun _⟩

theorem after (hm : m s = .ok a s') (hn : Settles n s' p Q) : Settles (m >>= fun _ => n) s p Q := by
  have hboth : Settles (m >>= fun _ => n) s (True ∧ p) Q := (of_ok hm rfl).seq fun _ h => h ▸ hn
  exact hboth.congr (iff_of_eq (true_and p)) fun _ h => h

end Settles

end Run
