import Mathlib.Order.Bounds.Basic
import Mathlib.Order.Nat

/-!
# Edit distance

The least number of insertions, deletions and substitutions of single letters that turn one string
into another, and the recursion that computes it.
-/

namespace EditDistance

variable {α : Type}

/-! ### Edits -/

/-- One letter is inserted, deleted or replaced. -/
inductive Edit : List α → List α → Prop
  | insert (l r : List α) (x : α) : Edit (l ++ r) (l ++ x :: r)
  | delete (l r : List α) (x : α) : Edit (l ++ x :: r) (l ++ r)
  | replace (l r : List α) (x y : α) : Edit (l ++ x :: r) (l ++ y :: r)

/-- `n` edits, one after the other. -/
inductive Edits : Nat → List α → List α → Prop
  | refl (a : List α) : Edits 0 a a
  | step {n : Nat} {a b c : List α} (h : Edit a b) (hs : Edits n b c) : Edits (n + 1) a c

theorem Edit.symm {a b : List α} (h : Edit a b) : Edit b a := by
  cases h with
  | insert l r x => exact .delete l r x
  | delete l r x => exact .insert l r x
  | replace l r x y => exact .replace l r y x

theorem Edit.cons {a b : List α} (z : α) (h : Edit a b) : Edit (z :: a) (z :: b) := by
  cases h with
  | insert l r x => exact .insert (z :: l) r x
  | delete l r x => exact .delete (z :: l) r x
  | replace l r x y => exact .replace (z :: l) r x y

theorem reverse_split (l r : List α) (x : α) :
    (l ++ x :: r).reverse = r.reverse ++ x :: l.reverse := by
  rw [List.reverse_append, List.reverse_cons, List.append_assoc, List.singleton_append]

theorem Edit.reverse {a b : List α} (h : Edit a b) : Edit a.reverse b.reverse := by
  cases h with
  | insert l r x =>
    rw [reverse_split, List.reverse_append]
    exact .insert _ _ x
  | delete l r x =>
    rw [reverse_split, List.reverse_append]
    exact .delete _ _ x
  | replace l r x y =>
    rw [reverse_split, reverse_split]
    exact .replace _ _ x y

theorem Edits.cons {n : Nat} {a b : List α} (z : α) (h : Edits n a b) :
    Edits n (z :: a) (z :: b) := by
  induction h with
  | refl a => exact .refl _
  | step h _ ih => exact .step (h.cons z) ih

theorem Edits.reverse {n : Nat} {a b : List α} (h : Edits n a b) : Edits n a.reverse b.reverse := by
  induction h with
  | refl a => exact .refl _
  | step h _ ih => exact .step h.reverse ih

theorem Edits.snoc {n : Nat} {a b c : List α} (hs : Edits n a b) (h : Edit b c) :
    Edits (n + 1) a c := by
  induction hs with
  | refl a => exact .step h (.refl c)
  | step h' _ ih => exact .step h' (ih h)

theorem Edits.symm {n : Nat} {a b : List α} (h : Edits n a b) : Edits n b a := by
  induction h with
  | refl a => exact .refl a
  | step h _ ih => exact ih.snoc h.symm

theorem edits_reverse {n : Nat} {a b : List α} : Edits n a.reverse b.reverse ↔ Edits n a b := by
  refine ⟨fun h => ?_, Edits.reverse⟩
  have hback := h.reverse
  rwa [List.reverse_reverse, List.reverse_reverse] at hback

theorem edits_comm {n : Nat} {a b : List α} : Edits n a b ↔ Edits n b a := ⟨Edits.symm, Edits.symm⟩

theorem edits_zero {a b : List α} : Edits 0 a b ↔ a = b := by
  constructor
  · intro h
    cases h
    rfl
  · rintro rfl
    exact .refl a

theorem edits_nil (b : List α) : Edits b.length [] b := by
  induction b with
  | nil => exact .refl []
  | cons y b ih => exact .step (.insert [] [] y) (ih.cons y)

/-! ### The recursion -/

variable [DecidableEq α]

def distance : List α → List α → Nat
  | [], b => b.length
  | x :: a, [] => (x :: a).length
  | x :: a, y :: b =>
    min (min (distance a (y :: b) + 1) (distance (x :: a) b + 1))
      (distance a b + if x = y then 0 else 1)
  termination_by a b => a.length + b.length

@[simp] theorem distance_nil_left (b : List α) : distance [] b = b.length := by rw [distance]

@[simp] theorem distance_nil_right (a : List α) : distance a [] = a.length := by
  cases a with
  | nil => rw [distance_nil_left]
  | cons x a => rw [distance]

theorem distance_cons_cons (x y : α) (a b : List α) :
    distance (x :: a) (y :: b) =
      min (min (distance a (y :: b) + 1) (distance (x :: a) b + 1))
      (distance a b + if x = y then 0 else 1) := by
  rw [distance]

/-! ### As many edits are enough -/

theorem edits_distance (a b : List α) : Edits (distance a b) a b := by
  fun_induction distance a b with
  | case1 b => exact edits_nil b
  | case2 x a => exact (edits_nil (x :: a)).symm
  | case3 x a y b ihdelete ihinsert ihreplace =>
    have hdelete : Edits (distance a (y :: b) + 1) (x :: a) (y :: b) :=
      .step (.delete [] a x) ihdelete
    have hinsert : Edits (distance (x :: a) b + 1) (x :: a) (y :: b) :=
      ihinsert.snoc (.insert [] b y)
    have hreplace : Edits (distance a b + if x = y then 0 else 1) (x :: a) (y :: b) := by
      split
      · rename_i heq
        exact heq ▸ ihreplace.cons x
      · exact .step (.replace [] a x y) (ihreplace.cons y)
    have hmin := min_rec' (Edits · (x :: a) (y :: b)) hdelete hinsert
    exact min_rec' (Edits · (x :: a) (y :: b)) hmin hreplace

/-! ### Fewer are not -/

theorem distance_delete (x : α) (a c : List α) : distance (x :: a) c ≤ distance a c + 1 := by
  cases c with
  | nil => simp
  | cons z c =>
    rw [distance_cons_cons]
    omega

theorem distance_insert_right (a : List α) (z : α) (c : List α) :
    distance a (z :: c) ≤ distance a c + 1 := by
  cases a with
  | nil => simp
  | cons x a =>
    rw [distance_cons_cons]
    omega

theorem distance_insert (x : α) (a c : List α) : distance a c ≤ distance (x :: a) c + 1 := by
  induction c with
  | nil =>
    simp only [distance_nil_right, List.length_cons]
    omega
  | cons z c ih =>
    have hright := distance_insert_right a z c
    rw [distance_cons_cons]
    omega

theorem distance_replace (x y : α) (a c : List α) :
    distance (x :: a) c ≤ distance (y :: a) c + 1 := by
  induction c with
  | nil => simp
  | cons z c ih =>
    rw [distance_cons_cons x, distance_cons_cons y]
    split <;> split <;> omega

/-- What one edit changes, it changes behind a common letter. -/
theorem distance_cons (z : α) {a b : List α} (h : ∀ c, distance a c ≤ distance b c + 1)
    (c : List α) :
    distance (z :: a) c ≤ distance (z :: b) c + 1 := by
  induction c with
  | nil =>
    have hlength := h []
    simp only [distance_nil_right, List.length_cons] at hlength ⊢
    omega
  | cons y c ih =>
    have hdelete := h (y :: c)
    have hreplace := h c
    rw [distance_cons_cons, distance_cons_cons]
    split <;> omega

theorem distance_append (l : List α) {a b : List α} (h : ∀ c, distance a c ≤ distance b c + 1)
    (c : List α) :
    distance (l ++ a) c ≤ distance (l ++ b) c + 1 := by
  induction l generalizing c with
  | nil => exact h c
  | cons z l ih => exact distance_cons z ih c

/-- One edit changes the distance by at most one. -/
theorem distance_edit {a b : List α} (h : Edit a b) (c : List α) :
    distance a c ≤ distance b c + 1 := by
  cases h with
  | insert l r x => exact distance_append l (distance_insert x r) c
  | delete l r x => exact distance_append l (distance_delete x r) c
  | replace l r x y => exact distance_append l (distance_replace x y r) c

theorem distance_self (a : List α) : distance a a = 0 := by
  induction a with
  | nil => simp
  | cons x a ih =>
    rw [distance_cons_cons, if_pos rfl]
    omega

theorem distance_le {n : Nat} {a b : List α} (h : Edits n a b) : distance a b ≤ n := by
  induction h with
  | refl a => rw [distance_self]
  | step h _ ih => exact (distance_edit h _).trans (Nat.add_le_add_right ih 1)

/-- The distance is the least number of edits. -/
theorem isLeast_distance (a b : List α) : IsLeast {n | Edits n a b} (distance a b) :=
  ⟨edits_distance a b, fun _ h => distance_le h⟩

end EditDistance
