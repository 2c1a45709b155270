import VCodec.Library.Run

/-!
# Pre- and postconditions of runs

A triple says how a run ends that starts in a state of its precondition: with a value and a state,
or with an error and a state, each as its postcondition has them. Both postconditions speak of the
state, because a run that fails leaves one, too. Triples compose as the computations do, so that a
program is judged by what is known of its parts.
-/

namespace Run

open EStateM (Result)

variable {ε σ α β : Type}

/-- The result is a value that `Q` allows or an error that `E` allows. -/
def Ends (Q : α → σ → Prop) (E : ε → σ → Prop) : Result ε σ α → Prop
  | .ok a s => Q a s
  | .error e s => E e s

def Triple (P : σ → Prop) (m : EStateM ε σ α) (Q : α → σ → Prop) (E : ε → σ → Prop) : Prop :=
  ∀ s, P s → Ends Q E (m s)

section

variable {P P' : σ → Prop} {Q Q' : α → σ → Prop} {R : β → σ → Prop} {E E' : ε → σ → Prop}
    {m n : EStateM ε σ α}

theorem Ends.mono {x : Result ε σ α} (h : Ends Q E x) (hQ : ∀ a s, Q a s → Q' a s)
    (hE : ∀ e s, E e s → E' e s) :
    Ends Q' E' x := by
  cases x with
  | ok a s => exact hQ a s h
  | error e s => exact hE e s h

namespace Triple

theorem of_error (h : Triple P m Q E) {s s' : σ} {e : ε} (hs : P s) (hrun : m s = .error e s') :
    E e s' := by
  have hends := h s hs
  rwa [hrun] at hends

theorem pre (h : Triple P m Q E) (hP : ∀ s, P' s → P s) : Triple P' m Q E :=
  fun s hs => h s (hP s hs)

theorem post (h : Triple P m Q E) (hQ : ∀ a s, Q a s → Q' a s) : Triple P m Q' E :=
  fun s hs => (h s hs).mono hQ fun _ _ he => he

/-- A precondition that does not depend on the state is a hypothesis. -/
theorem given {p : Prop} (h : p → Triple P m Q E) :
    Triple (fun s => p ∧ P s) m Q E := fun s hs => h hs.1 s hs.2

theorem pure {a : α} (h : ∀ s, P s → Q a s) : Triple P (Pure.pure a) Q E := h

theorem throw {e : ε} (h : ∀ s, P s → E e s) : Triple P (MonadExcept.throw e) Q E := h

/-- The state is read, and what follows starts from it. -/
theorem look {f : σ → EStateM ε σ α} (h : ∀ s, P s → Triple (· = s) (f s) Q E) :
    Triple P (MonadState.get >>= f) Q E :=
  fun s hs => h s hs s rfl

theorem start (h : Triple P m Q E) {s : σ} (hs : P s) : Triple (· = s) m Q E :=
  h.pre fun _ heq => heq ▸ hs

theorem modify {f : σ → σ} {Q : PUnit → σ → Prop} (h : ∀ s, P s → Q ⟨⟩ (f s)) :
    Triple P (modify f : EStateM ε σ PUnit) Q E := h

theorem bind {f : α → EStateM ε σ β} (hm : Triple P m Q E) (hf : ∀ a, Triple (Q a) (f a) R E) :
    Triple P (m >>= f) R E := by
  intro s hs
  have hends := hm s hs
  rw [bind_apply]
  cases hrun : m s with
  | ok a s₁ =>
    rw [hrun] at hends
    exact hf a s₁ hends
  | error e s₁ =>
    rw [hrun] at hends
    exact hends

theorem ite {c : Prop} [Decidable c] (hm : c → Triple P m Q E) (hn : ¬ c → Triple P n Q E) :
    Triple P (if c then m else n) Q E := by
  by_cases hc : c
  · rw [if_pos hc]
    exact hm hc
  · rw [if_neg hc]
    exact hn hc

theorem mapError {f : ε → ε} (hm : Triple P m Q E) (hf : ∀ e s, E e s → E' (f e) s) :
    Triple P (Run.mapError f m) Q E' := by
  intro s hs
  have hends := hm s hs
  unfold Run.mapError
  cases hrun : m s with
  | ok a s₁ =>
    rw [hrun] at hends
    exact hends
  | error e s₁ =>
    rw [hrun] at hends
    exact hf e s₁ hends

end Triple

end

end Run
