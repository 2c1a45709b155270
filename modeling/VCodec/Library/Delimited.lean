import Mathlib.Data.List.TakeWhile

/-!
# Delimited words

A sequence of words is read back from their concatenation when each word ends where the next may
begin. The words need not be prefix-free: a word that is a prefix of another one is told from it by
what stands behind it.
-/

namespace Delimited

variable {α β : Type*}

/-! ### One word -/

/-- A word ends at the first element that cannot be in it. -/
theorem append_inj {p : β → Bool} {v w r s : List β} (hv : ∀ b ∈ v, p b = true)
    (hw : ∀ b ∈ w, p b = true) (hr : ∀ b ∈ r.head?, p b = false) (hs : ∀ b ∈ s.head?, p b = false)
    (h : v ++ r = w ++ s) : v = w ∧ r = s := by
  have htake : ∀ {v r : List β}, (∀ b ∈ v, p b = true) → (∀ b ∈ r.head?, p b = false) →
    (v ++ r).takeWhile p = v := by
    intro v r hv hr
    rw [List.takeWhile_append_of_pos hv]
    cases r with
    | nil => exact List.append_nil v
    | cons b r => rw [List.takeWhile_cons, if_neg (by simp [hr b rfl]), List.append_nil]
  have hvw : v = w := by rw [← htake hv hr, h, htake hw hs]
  subst hvw
  exact ⟨rfl, List.append_cancel_left h⟩

/-! ### Sequences of words -/

/-- A spelling of legible words, with what may stand behind a word: nothing, or another word. -/
structure Code (spell : α → List β) (Legible : α → Prop) (Begins : List β → Prop) : Prop where
  ends : Begins []
  begins : ∀ a rest, Begins (spell a ++ rest)
  ne_nil : ∀ a, spell a ≠ []
  split : ∀ {a b r s}, Legible a → Legible b → Begins r → Begins s → spell a ++ r = spell b ++ s →
    a = b ∧ r = s

namespace Code

variable {spell : α → List β} {Legible : α → Prop} {Begins : List β → Prop}
    (h : Code spell Legible Begins)

include h

theorem begins_flatMap (as : List α) : Begins (as.flatMap spell) := by
  cases as with
  | nil => exact h.ends
  | cons a as =>
    rw [List.flatMap_cons]
    exact h.begins a _

theorem flatMap_ne_nil (a : α) (as : List α) : (a :: as).flatMap spell ≠ [] := by
  rw [List.flatMap_cons]
  exact List.append_ne_nil_of_left_ne_nil (h.ne_nil a) _

/-- Legible words are read back from their concatenation. -/
theorem flatMap_inj {as bs : List α} (ha : ∀ a ∈ as, Legible a) (hb : ∀ b ∈ bs, Legible b) :
    as.flatMap spell = bs.flatMap spell ↔ as = bs := by
  refine ⟨fun heq => ?_, fun heq => heq ▸ rfl⟩
  induction as generalizing bs with
  | nil =>
    cases bs with
    | nil => rfl
    | cons b bs => exact absurd heq.symm (h.flatMap_ne_nil b bs)
  | cons a as ih =>
    cases bs with
    | nil => exact absurd heq (h.flatMap_ne_nil a as)
    | cons b bs =>
      rw [List.flatMap_cons, List.flatMap_cons] at heq
      obtain ⟨hword, hrest⟩ :=
        h.split (ha a List.mem_cons_self) (hb b List.mem_cons_self) (h.begins_flatMap as)
        (h.begins_flatMap bs) heq
      rw [hword, ih (fun x hx => ha x (List.mem_cons_of_mem a hx))
        (fun x hx => hb x (List.mem_cons_of_mem b hx)) hrest]

end Code

end Delimited
