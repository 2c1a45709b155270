import VCodec.Core.Lookup
import VCodec.Library.EditDistance

/-!
# Did you mean

`levenshtein` computes the rows of the table of distances between the fronts of its operands;
`suggest` picks the nearest name.
-/

namespace VCodec

open EditDistance

/-! ### The table -/

/-- The distances of the fronts of a string, which go on from a front read backwards, to another
string read backwards. -/
def distances (front : Bytes) : Bytes → Bytes → List Nat
  | [], b => [distance front b]
  | x :: a, b => distance front b :: distances (x :: front) a b

theorem distances_head (front a b : Bytes) :
    ∃ row, distances front a b = distance front b :: row := by
  cases a with
  | nil => exact ⟨_, rfl⟩
  | cons x a => exact ⟨_, rfl⟩

theorem distances_last (front a b : Bytes) :
    (distances front a b).getLastD 0 = distance (a.reverse ++ front) b := by
  induction a generalizing front with
  | nil => rfl
  | cons x a ih =>
    obtain ⟨row, hrow⟩ := distances_head (x :: front) a b
    have hlast := ih (x :: front)
    rw [List.reverse_cons, List.append_assoc, List.singleton_append, ← hlast, distances, hrow]
    rfl

theorem distances_nil (front a : Bytes) :
    distances front a [] = List.range' front.length (a.length + 1) := by
  induction a generalizing front with
  | nil =>
    rw [distances, distance_nil_right]
    rfl
  | cons x a ih =>
    rw [distances, ih, distance_nil_right, List.length_cons, List.length_cons,
      List.range'_succ (s := front.length)]

/-- One row after the other. -/
theorem levenshteinRow_eq (c : UInt8) (front a b : Bytes) :
    distance front (c :: b) :: levenshteinRow c (distance front (c :: b)) a (distances front a b) =
      distances front a (c :: b) := by
  induction a generalizing front with
  | nil =>
    rw [distances, distances, levenshteinRow]
    exact fun x a p q prev ha => nomatch ha
  | cons x a ih =>
    obtain ⟨row, hrow⟩ := distances_head (x :: front) a b
    have hcell : min (min (distance (x :: front) b + 1) (distance front (c :: b) + 1))
        (distance front b + if x = c then 0 else 1) = distance (x :: front) (c :: b) := by
      rw [distance_cons_cons, min_comm (distance front (c :: b) + 1)]
    rw [distances, hrow, levenshteinRow, ← hrow, hcell, ih, distances]

theorem levenshteinRows_eq (a b done : Bytes) :
    levenshteinRows a (done.length + 1) b (distances [] a done) =
      distances [] a (b.reverse ++ done) := by
  induction b generalizing done with
  | nil => rfl
  | cons c b ih =>
    have hrow := levenshteinRow_eq c [] a done
    rw [distance_nil_left, List.length_cons] at hrow
    rw [levenshteinRows, hrow, List.reverse_cons, List.append_assoc,
      List.singleton_append, ← ih (c :: done), List.length_cons]

theorem levenshtein_table (a b : Bytes) :
    (levenshteinRows a 1 b (List.range (a.length + 1))).getLastD 0 =
      distance a.reverse b.reverse := by
  have hfirst : distances [] a [] = List.range (a.length + 1) := by
    rw [distances_nil, List.range_eq_range']
    rfl
  have hrows := levenshteinRows_eq a b []
  rw [hfirst] at hrows
  have hlast := distances_last [] a (b.reverse ++ [])
  rw [← hrows, List.append_nil, List.append_nil] at hlast
  exact hlast

/-- Whichever operand goes across, the result is the least number of edits. -/
theorem isLeast_levenshtein (a b : Bytes) : IsLeast {n | Edits n a b} (levenshtein a b) := by
  have hback : ∀ {n}, Edits n a.reverse b.reverse ↔ Edits n a b := edits_reverse
  have hswap : ∀ {n}, Edits n b.reverse a.reverse ↔ Edits n a b := edits_comm.trans edits_reverse
  unfold levenshtein
  by_cases hlonger : b.length < a.length
  · rw [if_pos hlonger]
    have hleast := isLeast_distance b.reverse a.reverse
    rw [← levenshtein_table] at hleast
    simpa only [hswap] using hleast
  · rw [if_neg hlonger]
    have hleast := isLeast_distance a.reverse b.reverse
    rw [← levenshtein_table] at hleast
    simpa only [hback] using hleast

theorem levenshtein_comm (a b : Bytes) : levenshtein a b = levenshtein b a := by
  apply (isLeast_levenshtein a b).unique
  simpa only [edits_comm (a := b)] using isLeast_levenshtein b a

theorem levenshtein_eq_zero {a b : Bytes} : levenshtein a b = 0 ↔ a = b := by
  rw [← edits_zero]
  have hleast := isLeast_levenshtein a b
  constructor
  · intro hzero
    rw [← hzero]
    exact hleast.1
  · intro hedits
    exact Nat.le_zero.1 (hleast.2 hedits)

/-! ### The selection -/

/-- A decodable member that is nearer than all before it and no farther than all behind it. -/
def Nearest (key : Bytes) (fields : List Field) (f : Field) : Prop :=
  f.skipDeserializing = false ∧ ∃ before behind, fields = before ++ f :: behind ∧
    (∀ g ∈ before, g.skipDeserializing = false →
      levenshtein key f.wireName < levenshtein key g.wireName) ∧
    ∀ g ∈ behind, g.skipDeserializing = false →
      levenshtein key f.wireName ≤ levenshtein key g.wireName

/-- One member of the loop of `suggest`. -/
def suggestStep (key : Bytes) (best : Bytes × Nat) (f : Field) : Bytes × Nat :=
  if f.skipDeserializing then best
  else
    let d := levenshtein key f.wireName
    if d < best.2 then (f.wireName, d) else best

theorem suggestStep_cases (key : Bytes) (best : Bytes × Nat) (f : Field) :
    f.skipDeserializing = false ∧ levenshtein key f.wireName < best.2 ∧
        suggestStep key best f = (f.wireName, levenshtein key f.wireName) ∨
      (f.skipDeserializing = false → best.2 ≤ levenshtein key f.wireName) ∧
        suggestStep key best f = best := by
  unfold suggestStep
  by_cases hskip : f.skipDeserializing = true
  · rw [if_pos hskip]
    exact .inr ⟨fun h => absurd (hskip.symm.trans h) nofun, rfl⟩
  · rw [if_neg hskip]
    by_cases hless : levenshtein key f.wireName < best.2
    · exact .inl ⟨Bool.eq_false_iff.2 hskip, hless, if_pos hless⟩
    · exact .inr ⟨fun _ => Nat.not_lt.1 hless, if_neg hless⟩

/-- The loop keeps what it has, or ends with the nearest member. -/
theorem foldl_suggestStep (key : Bytes) (best : Bytes × Nat) (fields : List Field) :
    (∃ f, Nearest key fields f ∧ levenshtein key f.wireName < best.2 ∧
        fields.foldl (suggestStep key) best = (f.wireName, levenshtein key f.wireName)) ∨
      (∀ f ∈ fields, f.skipDeserializing = false → best.2 ≤ levenshtein key f.wireName) ∧
        fields.foldl (suggestStep key) best = best := by
  induction fields generalizing best with
  | nil => exact .inr ⟨fun f hf => (List.not_mem_nil hf).elim, rfl⟩
  | cons f fields ih =>
    rw [List.foldl_cons]
    rcases suggestStep_cases key best f with ⟨hdecodable, hless, hstep⟩ | ⟨hfar, hstep⟩
    · rw [hstep]
      rcases ih (f.wireName, levenshtein key f.wireName) with ⟨g,
        ⟨hg, before, behind, rfl, hbefore, hbehind⟩, hnear, hrun⟩ | ⟨hrest, hrun⟩
      · refine .inl ⟨g, ⟨hg, f :: before, behind, rfl, ?_, hbehind⟩, hnear.trans hless, hrun⟩
        exact List.forall_mem_cons.2 ⟨fun _ => hnear, hbefore⟩
      · exact .inl ⟨f, ⟨hdecodable, [], fields, rfl, fun g hg => (List.not_mem_nil hg).elim, hrest⟩,
          hless, hrun⟩
    · rw [hstep]
      rcases ih best with ⟨g, ⟨hg, before, behind, rfl, hbefore, hbehind⟩, hnear, hrun⟩ | ⟨hrest,
        hrun⟩
      · refine .inl ⟨g, ⟨hg, f :: before, behind, rfl, ?_, hbehind⟩, hnear, hrun⟩
        exact List.forall_mem_cons.2 ⟨fun hf => hnear.trans_le (hfar hf), hbefore⟩
      · exact .inr ⟨List.forall_mem_cons.2 ⟨hfar, hrest⟩, hrun⟩

theorem suggest_eq (key : Bytes) (fields : List Field) :
    suggest key fields = (fields.foldl (suggestStep key) ([], 3)).1 :=
  rfl

/-- `levenshtein` is the edit distance, a symmetric one that is zero for equal strings only.
`suggest` names the first decodable member at the least distance, if that is at most 2, and none if
all are farther. -/
theorem suggest_nearest :
    (∀ a b : Bytes, IsLeast {n | Edits n a b} (levenshtein a b) ∧
      levenshtein a b = levenshtein b a ∧
      (levenshtein a b = 0 ↔ a = b)) ∧
    ∀ (key : Bytes) (fields : List Field),
      (∃ f, Nearest key fields f ∧ levenshtein key f.wireName ≤ 2 ∧ suggest key fields = f.wireName)
        ∨
        (∀ f ∈ fields, f.skipDeserializing = false → 2 < levenshtein key f.wireName) ∧
          suggest key fields = [] := by
  refine ⟨fun a b => ⟨isLeast_levenshtein a b, levenshtein_comm a b, levenshtein_eq_zero⟩,
    fun key fields => ?_⟩
  rcases foldl_suggestStep key ([], 3) fields with ⟨f, hf, hless, hrun⟩ | ⟨hfar, hrun⟩
  · exact .inl ⟨f, hf, Nat.le_of_lt_succ hless, by rw [suggest_eq, hrun]⟩
  · exact .inr ⟨hfar, by rw [suggest_eq, hrun]⟩

end VCodec
