import VCodec.Core.Lands
import VCodec.Library.Lockstep

/-!
# What a run leaves of the object

Construction writes into the object it is given, also where it fails. `Leaves R m` says how the
object that any run of `m` leaves is related to the one it was given; `FailsLeaving R m` says it of
the failing runs only.
-/

namespace VCodec

open D
open Run (final)

variable {σ S M α β : Type}

/-- A relation between objects that the runs of a sequence may each keep. -/
structure Frame (R : Val → Val → Prop) : Prop where
  refl : ∀ v, R v v
  trans : ∀ {u v w}, R u v → R v w → R u w

theorem frame_eq : Frame (fun v v' => v' = v) := ⟨fun _ => rfl, fun h h' => h'.trans h⟩

theorem frame_keeps (P : Val → Prop) : Frame (fun v v' => P v → P v') :=
  ⟨fun _ h => h, fun h h' hp => h' (h hp)⟩

/-- Item `i` is the same, and there are as many items. -/
def SameItem (i : Nat) (v v' : Val) : Prop :=
  v'.item i = v.item i ∧ v'.items.length = v.items.length

theorem frame_sameItem (i : Nat) : Frame (SameItem i) where
  refl _ := ⟨rfl, rfl⟩
  trans h h' := ⟨h'.1.trans h.1, h'.2.trans h.2⟩

def Leaves (R : Val → Val → Prop) (m : D σ α) : Prop := ∀ b, R b.out (final (m b)).out

def FailsLeaving (R : Val → Val → Prop) (m : D σ α) : Prop :=
  ∀ b e b', m b = .error e b' → R b.out b'.out

variable {R : Val → Val → Prop} {m : D σ α} {f : α → D σ β}

/-! ### Rules -/

namespace Leaves

theorem bind (hR : Frame R) (hm : Leaves R m) (hf : ∀ a, Leaves R (f a)) : Leaves R (m >>= f) := by
  intro b
  have hb := hm b
  rw [Run.bind_apply]
  cases hx : m b with
  | ok a b₁ =>
    rw [hx] at hb
    exact hR.trans hb (hf a b₁)
  | error e b₁ =>
    rw [hx] at hb
    exact hb

theorem ite {c : Prop} [Decidable c] {m n : D σ α} (hm : c → Leaves R m) (hn : ¬ c → Leaves R n) :
    Leaves R (if c then m else n) := by
  by_cases hc : c
  · rw [if_pos hc]
    exact hm hc
  · rw [if_neg hc]
    exact hn hc

theorem pure (hR : Frame R) (a : α) : Leaves R (pure a : D σ α) := fun b => hR.refl b.out

theorem throw (hR : Frame R) (a : Abort) : Leaves R (throw a : D σ α) := fun b => hR.refl b.out

theorem fail (hR : Frame R) (e : Error) : Leaves R (fail e : D σ α) := fun b => hR.refl b.out

theorem call (hR : Frame R) (m : EStateM Error σ α) : Leaves R (call m) := by
  intro b
  unfold D.call
  cases m b.reader with
  | ok a s => exact hR.refl b.out
  | error e s => exact hR.refl b.out

theorem attempt (hR : Frame R) (m : EStateM Error σ α) : Leaves R (attempt m) := by
  intro b
  unfold D.attempt
  cases m b.reader with
  | ok a s => exact hR.refl b.out
  | error e s => exact hR.refl b.out

theorem getReader (hR : Frame R) : Leaves R (getReader : D σ σ) := fun b => hR.refl b.out

theorem modifyReader (hR : Frame R) (g : σ → σ) : Leaves R (modifyReader g) :=
  fun b => hR.refl b.out

theorem collect (hR : Frame R) (r : Reader σ S M) (e : Error) : Leaves R (collect r e) :=
  fun b => hR.refl b.out

theorem mapError {g : Error → Error} (h : Leaves R m) : Leaves R (mapError g m) := by
  intro b
  have hb := h b
  unfold D.mapError Run.mapError
  cases hx : m b with
  | ok a b₁ =>
    rw [hx] at hb
    exact hb
  | error e b₁ =>
    rw [hx] at hb
    exact hb

end Leaves

theorem final_mapError {g : Error → Error} (m : D σ α) (b : Build σ) :
    (final (mapError g m b)).out = (final (m b)).out := by
  unfold D.mapError Run.mapError
  cases m b with
  | ok a b' => rfl
  | error e b' => rfl

/-- A step of the path is a matter of the reader. -/
theorem final_inStep (r : Reader σ S M) (step : Error → Error) (m : D σ α) (b : Build σ) :
    (final (inStep r step m b)).out = (final (m b)).out := by
  rw [← final_mapError m b (g := step)]
  unfold inStep
  cases mapError step m b with
  | ok a b' => cases r.errors <;> rfl
  | error e b' => cases r.errors <;> rfl

theorem final_focus (get : Val → Val) (put : Val → Val → Val) (m : D σ α) (b : Build σ) :
    (final (focus get put m b)).out = put b.out (final (m { b with out := get b.out })).out := by
  unfold focus
  cases m { b with out := get b.out } with
  | ok a b' => rfl
  | error e b' => rfl

theorem Leaves.inStep (r : Reader σ S M) {step : Error → Error} (h : Leaves R m) :
    Leaves R (inStep r step m) := by
  intro b
  rw [final_inStep]
  exact h b

/-- Other items are left alone. -/
theorem Leaves.onItem {i j : Nat} (hne : j ≠ i) (m : D σ α) : Leaves (SameItem i) (onItem j m) := by
  intro b
  unfold D.onItem
  rw [final_focus]
  refine ⟨?_, ?_⟩
  · rw [item_setItem, if_neg fun h => hne h.1]
  · exact List.length_set

namespace FailsLeaving

/-- What comes before the failure leaves the object alone. -/
theorem bind (hm : Leaves (fun v v' => v' = v) m) (hf : ∀ a, FailsLeaving R (f a)) (hR : Frame R) :
    FailsLeaving R (m >>= f) := by
  intro b e b' h
  have hb := hm b
  rcases Run.bind_eq_error.1 h with hfail | ⟨a, b₁, hok, hfail⟩
  · rw [hfail] at hb
    exact hb ▸ hR.refl b.out
  · rw [hok] at hb
    exact hb ▸ hf a b₁ e b' hfail

theorem of_leaves (h : Leaves R m) : FailsLeaving R m := by
  intro b e b' hfail
  have hb := h b
  rw [hfail] at hb
  exact hb

/-- The object is assigned last. -/
theorem setOut (v : Val) : FailsLeaving R (setOut v : D σ Unit) := by
  intro b e b' h
  cases h

theorem ite {c : Prop} [Decidable c] {m n : D σ α} (hm : c → FailsLeaving R m)
    (hn : ¬ c → FailsLeaving R n) :
    FailsLeaving R (if c then m else n) := by
  by_cases hc : c
  · rw [if_pos hc]
    exact hm hc
  · rw [if_neg hc]
    exact hn hc

end FailsLeaving

end VCodec
