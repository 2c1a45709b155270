import Mathlib.Data.List.Chain

/-!
# Splitting a list into words

A word ends before a separator, between two neighbours with a cut, and at the end of the list. The
separators belong to no word. A finer cut gives more words, and where every additional word begins
with a marked letter, it gives more words that do.
-/

namespace Words

variable {α : Type}

/-- Put letters in front of the first word. -/
def attach (pre : List α) : List (List α) → List (List α)
  | [] => [pre]
  | w :: ws => (pre ++ w) :: ws

theorem attach_nil {ws : List (List α)} (h : ws ≠ []) : attach [] ws = ws := by
  cases ws with
  | nil => exact absurd rfl h
  | cons w ws => rfl

theorem attach_attach (pre pre' : List α) (ws : List (List α)) :
    attach pre (attach pre' ws) = attach (pre ++ pre') ws := by
  cases ws <;> simp [attach]

theorem attach_ne_nil (pre : List α) (ws : List (List α)) : attach pre ws ≠ [] := by
  cases ws <;> simp [attach]

theorem tail_attach (pre : List α) (ws : List (List α)) : (attach pre ws).tail = ws.tail := by
  cases ws <;> rfl

/-- The words that begin with a marked letter. -/
def marked (p : α → Bool) (ws : List (List α)) : Nat := ws.countP fun w => w.head?.any p

theorem marked_eq (p : α → Bool) (ws : List (List α)) :
    marked p ws = (if (ws.head?.bind List.head?).any p then 1 else 0) + marked p ws.tail := by
  cases ws with
  | nil => rfl
  | cons w ws => cases h : w.head?.any p <;> simp [marked, h, Nat.add_comm]

variable [DecidableEq α]

/-- A word that ends in `c` ends before what follows. -/
def ends (sep : α) (cut : α → α → Bool) (c : α) (s : List α) : Bool :=
  s.head?.any fun d => d = sep || cut c d

def split (sep : α) (cut : α → α → Bool) : List α → List (List α)
  | [] => []
  | c :: s =>
    if c = sep then split sep cut s
    else if ends sep cut c s then [c] :: split sep cut s
    else attach [c] (split sep cut s)

variable {sep : α} {cut : α → α → Bool}

@[simp] theorem split_nil : split sep cut [] = [] := rfl

@[simp] theorem split_sep (s : List α) : split sep cut (sep :: s) = split sep cut s := by
  simp [split]

theorem split_of_ends {c : α} {s : List α} (hc : c ≠ sep) (h : ends sep cut c s = true) :
    split sep cut (c :: s) = [c] :: split sep cut s := by simp [split, hc, h]

theorem split_of_not_ends {c : α} {s : List α} (hc : c ≠ sep) (h : ends sep cut c s = false) :
    split sep cut (c :: s) = attach [c] (split sep cut s) := by simp [split, hc, h]

@[simp] theorem ends_nil (c : α) : ends sep cut c [] = false := rfl

@[simp] theorem ends_sep (c : α) (s : List α) : ends sep cut c (sep :: s) = true := by simp [ends]

theorem ends_cons {c d : α} (hd : d ≠ sep) (s : List α) :
    ends sep cut c (d :: s) = cut c d := by simp [ends, hd]

theorem split_ne_nil {c : α} (hc : c ≠ sep) (s : List α) : split sep cut (c :: s) ≠ [] := by
  rw [split, if_neg hc]
  split
  · simp
  · exact attach_ne_nil _ _

theorem ne_nil_of_mem_split {s w : List α} (hw : w ∈ split sep cut s) : w ≠ [] := by
  induction s generalizing w with
  | nil => simp at hw
  | cons c s ih =>
    by_cases hc : c = sep
    · subst hc
      rw [split_sep] at hw
      exact ih hw
    · cases h : ends sep cut c s with
      | true =>
        rw [split_of_ends hc h, List.mem_cons] at hw
        rcases hw with rfl | hw
        · simp
        · exact ih hw
      | false =>
        rw [split_of_not_ends hc h] at hw
        cases hs : split sep cut s with
        | nil =>
          rw [hs, attach, List.mem_singleton] at hw
          simp [hw]
        | cons w₁ ws =>
          rw [hs, attach, List.mem_cons] at hw
          rcases hw with rfl | hw
          · simp
          · exact ih (by rw [hs]; exact List.mem_cons_of_mem _ hw)

/-- The words hold the letters that are no separators, in order. -/
theorem flatten_split (s : List α) : (split sep cut s).flatten = s.filter (· ≠ sep) := by
  have hattach : ∀ c (ws : List (List α)), (attach [c] ws).flatten = c :: ws.flatten := by
    intro c ws
    cases ws <;> simp [attach]
  induction s with
  | nil => rfl
  | cons c s ih =>
    by_cases hc : c = sep
    · simpa [split, hc] using ih
    · cases h : ends sep cut c s with
      | true => simpa [split_of_ends hc h, hc] using ih
      | false => simpa [split_of_not_ends hc h, hattach, hc] using ih

/-- What a word begins with is the first letter that is no separator. -/
theorem head_split (s : List α) : (split sep cut s).head?.bind List.head? = s.find? (· ≠ sep) := by
  induction s with
  | nil => rfl
  | cons c s ih =>
    by_cases hc : c = sep
    · simpa [split, hc] using ih
    · cases h : ends sep cut c s with
      | true => simp [split_of_ends hc h, hc]
      | false =>
        rw [split_of_not_ends hc h, List.find?_cons_of_pos (by simpa using hc)]
        cases split sep cut s <;> rfl

/-! ### A finer cut -/

variable {fine : α → α → Bool} {p : α → Bool}

theorem ends_mono (hfine : ∀ c d, cut c d → fine c d) {c : α} {s : List α}
    (h : ends sep cut c s = true) :
    ends sep fine c s = true := by
  cases s with
  | nil => simp at h
  | cons d s =>
    simp only [ends, List.head?_cons, Option.any_some, Bool.or_eq_true] at h ⊢
    exact h.imp id (hfine c d)

theorem marked_tail_le (hfine : ∀ c d, cut c d → fine c d) (s : List α) :
    marked p (split sep cut s).tail ≤ marked p (split sep fine s).tail := by
  induction s with
  | nil => exact le_rfl
  | cons c s ih =>
    have hall : marked p (split sep cut s) ≤ marked p (split sep fine s) := by
      rw [marked_eq p (split sep cut s), marked_eq p (split sep fine s), head_split, head_split]
      exact Nat.add_le_add_left ih _
    by_cases hc : c = sep
    · simpa [split, hc] using ih
    · cases h : ends sep cut c s with
      | true =>
        rw [split_of_ends hc h, split_of_ends hc (ends_mono hfine h)]
        exact hall
      | false =>
        rw [split_of_not_ends hc h, tail_attach]
        cases h' : ends sep fine c s with
        | true =>
          rw [split_of_ends hc h', List.tail_cons]
          refine le_trans ih ?_
          rw [marked_eq p (split sep fine s)]
          exact Nat.le_add_left _ _
        | false =>
          rw [split_of_not_ends hc h', tail_attach]
          exact ih

/-- A cut that is finer somewhere gives more marked words, if it marks what it adds. -/
theorem marked_tail_lt (hfine : ∀ c d, cut c d → fine c d)
    (hsep : ∀ c d, fine c d → c ≠ sep ∧ d ≠ sep) (hp : ∀ c d, fine c d → ¬ cut c d → p d)
    {s : List α} (hs : ¬ s.IsChain fun c d => fine c d → cut c d) :
    marked p (split sep cut s).tail < marked p (split sep fine s).tail := by
  induction s with
  | nil => exact absurd .nil hs
  | cons c s ih =>
    cases s with
    | nil => exact absurd (.singleton c) hs
    | cons d s =>
      rw [List.isChain_cons_cons, not_and_or, Classical.not_imp] at hs
      have hle : marked p (split sep cut (d :: s)).tail ≤ marked p (split sep fine (d :: s)).tail :=
        marked_tail_le hfine (d :: s)
      rcases hs with ⟨hcd, hcut⟩ | hs
      · -- the additional word begins here
        obtain ⟨hc, hd⟩ := hsep c d hcd
        have hfirst : ((split sep fine (d :: s)).head?.bind List.head?).any p = true := by
          rw [head_split, List.find?_cons_of_pos (by simpa using hd)]
          exact hp c d hcd hcut
        rw [split_of_not_ends hc (by rw [ends_cons hd]; simpa using hcut), tail_attach,
          split_of_ends hc (by rw [ends_cons hd]; exact hcd), List.tail_cons,
            marked_eq p (split sep fine (d :: s)), if_pos hfirst]
        omega
      · have hlt := ih hs
        have hall : marked p (split sep cut (d :: s)) < marked p (split sep fine (d :: s)) := by
          rw [marked_eq p (split sep cut (d :: s)), marked_eq p (split sep fine (d :: s)),
            head_split, head_split]
          exact Nat.add_lt_add_left hlt _
        by_cases hc : c = sep
        · rwa [hc, split_sep, split_sep]
        · cases h : ends sep cut c (d :: s) with
          | true =>
            rw [split_of_ends hc h, split_of_ends hc (ends_mono hfine h)]
            exact hall
          | false =>
            rw [split_of_not_ends hc h, tail_attach]
            cases h' : ends sep fine c (d :: s) with
            | true =>
              rw [split_of_ends hc h', List.tail_cons]
              refine lt_of_lt_of_le hlt ?_
              rw [marked_eq p (split sep fine (d :: s))]
              exact Nat.le_add_left _ _
            | false =>
              rw [split_of_not_ends hc h', tail_attach]
              exact hlt

/-- Cuts that agree on all neighbours give the same words. -/
theorem split_congr (hfine : ∀ c d, cut c d → fine c d) {s : List α}
    (hs : s.IsChain fun c d => fine c d → cut c d) :
    split sep fine s = split sep cut s := by
  induction s with
  | nil => rfl
  | cons c s ih =>
    have htail : split sep fine s = split sep cut s := ih hs.tail
    have hends : ends sep fine c s = ends sep cut c s := by
      cases s with
      | nil => rfl
      | cons d s =>
        have hcd := (List.isChain_cons_cons.1 hs).1
        have heq : fine c d = cut c d := Bool.eq_iff_iff.2 ⟨hcd, hfine c d⟩
        simp [ends, heq]
    simp only [split, htail, hends]

end Words
