import VCodec.Library.Run

/-!
# Runs that log their failures

One computation ends at its first failure. Another one may log a failure in its state and go on.
They run in lockstep if they do the same until the first one fails: then the second one either fails
in the same way, with nothing logged, or has logged that failure before any other. What it does
afterwards is left open, except that it only adds to the log.
-/

namespace Run

open EStateM (Result)

variable {ε σ η α β : Type}

/-- The state that a run ends in. -/
def final : Result ε σ α → σ
  | .ok _ s => s
  | .error _ s => s

variable (log : σ → List η) (failure : η → ε)

/-- A run from `s` with result `x` does not touch the log. -/
def Silent (s : σ) (x : Result ε σ α) : Prop := log (final x) = log s

/-- The computation never touches the log. -/
abbrev Quiet (m : EStateM ε σ α) : Prop := ∀ s, Silent log s (m s)

/-- From `s`, the result `y` of the run that logs follows the result `x` of the one that fails. -/
def Follows (s : σ) (x y : Result ε σ α) : Prop :=
  (y = x ∧ Silent log s x) ∨ ∃ e s₁ es, x = .error (failure e) s₁ ∧ log (final y) = log s ++ e :: es

/-- The second computation follows the first one from every state. -/
def Lockstep (m n : EStateM ε σ α) : Prop := ∀ s, Follows log failure s (m s) (n s)

variable {log failure}

/-- The log grows only. -/
theorem Follows.grows {s : σ} {x y : Result ε σ α} (h : Follows log failure s x y) :
    ∃ es, log (final y) = log s ++ es := by
  rcases h with ⟨rfl, hsilent⟩ | ⟨e, -, es, -, hlog⟩
  · exact ⟨[], by rw [hsilent, List.append_nil]⟩
  · exact ⟨e :: es, hlog⟩

theorem Silent.follows {s : σ} {x : Result ε σ α} (h : Silent log s x) : Follows log failure s x
    x := .inl ⟨rfl, h⟩

theorem Lockstep.of_quiet {m : EStateM ε σ α} (h : Quiet log m) : Lockstep log failure m m :=
  fun s => (h s).follows

theorem Lockstep.pure (a : α) : Lockstep log failure (pure a) (pure a) := .of_quiet fun _ => rfl

theorem Lockstep.throw (e : ε) :
    Lockstep log failure (throw e : EStateM ε σ α) (MonadExcept.throw e) := .of_quiet fun _ => rfl

/-- The failing side has failed, and the other one goes on behind what it has logged. -/
theorem Follows.goes_on {s s₁ s₂ : σ} {e : η} {es es' : List η} {y : Result ε σ α}
    (hlog : log s₂ = log s ++ e :: es) (hy : log (final y) = log s₂ ++ es') :
    Follows log failure s (.error (failure e) s₁) y :=
  .inr ⟨e, s₁, es ++ es', rfl, by rw [hy, hlog, List.append_assoc, List.cons_append]⟩

theorem Lockstep.bind {m n : EStateM ε σ α} {f g : α → EStateM ε σ β}
    (hm : Lockstep log failure m n) (hf : ∀ a, Lockstep log failure (f a) (g a)) :
    Lockstep log failure (m >>= f) (n >>= g) := by
  intro s
  rw [bind_apply, bind_apply]
  rcases hm s with ⟨heq, hsilent⟩ | ⟨e, s₁, es, hx, hlog⟩
  · rw [heq]
    cases hx : m s with
    | error e s₁ =>
      rw [hx] at hsilent
      exact .inl ⟨rfl, hsilent⟩
    | ok a s₁ =>
      rw [hx] at hsilent
      -- nothing is logged yet, so the rest may be judged from the state in between
      have hmid : log s₁ = log s := hsilent
      rcases hf a s₁ with ⟨heq', hsilent'⟩ | ⟨e, s₂, es, hx', hlog⟩
      · exact .inl ⟨heq', hsilent'.trans hmid⟩
      · exact .inr ⟨e, s₂, es, hx', by rw [hlog, hmid]⟩
  · rw [hx]
    cases hy : n s with
    | error e' s₂ =>
      rw [hy] at hlog
      exact .inr ⟨e, s₁, es, rfl, hlog⟩
    | ok a s₂ =>
      rw [hy] at hlog
      obtain ⟨es', hgrows⟩ := (hf a s₂).grows
      exact .goes_on hlog hgrows

theorem Lockstep.ite {c : Prop} [Decidable c] {m₁ m₂ n₁ n₂ : EStateM ε σ α}
    (h₁ : c → Lockstep log failure m₁ n₁) (h₂ : ¬ c → Lockstep log failure m₂ n₂) :
    Lockstep log failure (if c then m₁ else m₂) (if c then n₁ else n₂) := by
  by_cases hc : c
  · rw [if_pos hc, if_pos hc]
    exact h₁ hc
  · rw [if_neg hc, if_neg hc]
    exact h₂ hc

/-! ### Forgetting -/

/-- The result with its last state changed. -/
def mapState (f : σ → σ) : Result ε σ α → Result ε σ α
  | .ok a s => .ok a (f s)
  | .error e s => .error e (f s)

/-- From a state changed by `f` the second computation does what the first one does, and ends in the
first one's last state changed by `f`. -/
def Commutes (f : σ → σ) (m n : EStateM ε σ α) : Prop := ∀ s, n (f s) = mapState f (m s)

variable {f : σ → σ}

theorem Commutes.pure (a : α) : Commutes f (pure a : EStateM ε σ α) (pure a) := fun _ => rfl

theorem Commutes.throw (e : ε) : Commutes f (throw e : EStateM ε σ α) (MonadExcept.throw e) :=
  fun _ => rfl

theorem Commutes.bind {m n : EStateM ε σ α} {g h : α → EStateM ε σ β} (hm : Commutes f m n)
    (hg : ∀ a, Commutes f (g a) (h a)) : Commutes f (m >>= g) (n >>= h) := by
  intro s
  rw [bind_apply, bind_apply, hm s]
  cases m s with
  | ok a s₁ => exact hg a s₁
  | error e s₁ => rfl

theorem Commutes.ite {c : Prop} [Decidable c] {m₁ m₂ n₁ n₂ : EStateM ε σ α}
    (h₁ : c → Commutes f m₁ n₁) (h₂ : ¬ c → Commutes f m₂ n₂) :
    Commutes f (if c then m₁ else m₂) (if c then n₁ else n₂) := by
  by_cases hc : c
  · rw [if_pos hc, if_pos hc]
    exact h₁ hc
  · rw [if_neg hc, if_neg hc]
    exact h₂ hc

/-- The state is read, and something is done with it that the change makes no difference to. -/
theorem Commutes.look {m n : σ → EStateM ε σ α} (hn : ∀ s, n (f s) = n s)
    (h : ∀ s, Commutes f (m s) (n s)) : Commutes f (do m (← get)) (do n (← get)) := by
  intro s
  rw [bind_of_ok (get_apply s), bind_of_ok (get_apply (f s)), hn]
  exact h s s

/-- The computation neither looks at the log nor changes it. -/
def Deaf (put : List η → σ → σ) (m : EStateM ε σ α) : Prop := ∀ es, Commutes (put es) m m

variable {put : List η → σ → σ}

theorem Deaf.quiet (get_put : ∀ es s, log (put es s) = es) (put_log : ∀ s, put (log s) s = s)
    {m : EStateM ε σ α} (h : Deaf put m) : Quiet log m := by
  intro s
  have hs := h (log s) s
  rw [put_log] at hs
  unfold Silent
  rw [hs]
  cases m s <;> exact get_put _ _

theorem Deaf.pure (a : α) : Deaf put (pure a : EStateM ε σ α) := fun _ => .pure a

theorem Deaf.throw (e : ε) : Deaf put (throw e : EStateM ε σ α) := fun _ => .throw e

theorem Deaf.bind {m : EStateM ε σ α} {g : α → EStateM ε σ β} (hm : Deaf put m)
    (hg : ∀ a, Deaf put (g a)) : Deaf put (m >>= g) := fun es => (hm es).bind fun a => hg a es

theorem Deaf.ite {c : Prop} [Decidable c] {m n : EStateM ε σ α} (hm : Deaf put m)
    (hn : Deaf put n) : Deaf put (if c then m else n) := fun es =>
  .ite (fun _ => hm es) fun _ => hn es

theorem Deaf.look {m : σ → EStateM ε σ α} (hlook : ∀ es s, m (put es s) = m s)
    (h : ∀ s, Deaf put (m s)) : Deaf put (do m (← get)) := fun es =>
  .look (hlook es) fun s => h s es

end Run
