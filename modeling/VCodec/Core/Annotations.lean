import VCodec.Error
import VCodec.Library.Words

/-!
# Annotations

`rename_all` gives a member the wire name that its identifier has in a case style. `applyCase`
splits the identifier into words and joins them in the style. It looks for a lower-case letter
before an upper-case one among the letters it has already lowered, so it also splits between two
capitals.
-/

namespace VCodec

/-- `case_`. -/
inductive Case
  | camel | pascal | snake | kebab | screamingSnake
  deriving DecidableEq, Repr

def isUpper (c : UInt8) : Bool := 0x41 ≤ c.toNat ∧ c.toNat ≤ 0x5A

def isLower (c : UInt8) : Bool := 0x61 ≤ c.toNat ∧ c.toNat ≤ 0x7A

def toLower (c : UInt8) : UInt8 := if isUpper c then UInt8.ofNat (c.toNat + 0x20) else c

def toUpper (c : UInt8) : UInt8 := if isLower c then UInt8.ofNat (c.toNat - 0x20) else c

def underscore : UInt8 := 0x5F

/-- The words so far, with the current one if it is not empty. -/
def flush (words : List Bytes) (cur : Bytes) : List Bytes :=
  if cur = [] then words else words ++ [cur]

def wordsLoop : Bytes → List Bytes → Bytes → List Bytes
  | [], words, cur => flush words cur
  | c :: ident, words, cur =>
    if c = underscore then wordsLoop ident (flush words cur) []
    else if isUpper c ∧ cur.getLast?.any isLower then wordsLoop ident (flush words cur) [toLower c]
    else wordsLoop ident words (cur ++ [toLower c])

def capitalise : Bytes → Bytes
  | [] => []
  | c :: word => toUpper c :: word

/-- What the word of index `w` adds to the name. -/
def caseWord (style : Case) (w : Nat) (word : Bytes) : Bytes :=
  match style with
  | .snake => (if w ≠ 0 then [underscore] else []) ++ word
  | .kebab => (if w ≠ 0 then [0x2D] else []) ++ word
  | .screamingSnake => (if w ≠ 0 then [underscore] else []) ++ word.map toUpper
  | .camel => if w ≠ 0 then capitalise word else word
  | .pascal => capitalise word

def joinWords (style : Case) (words : List Bytes) : Bytes := (words.mapIdx (caseWord style)).flatten

def applyCase (ident : Bytes) (style : Case) : Bytes := joinWords style (wordsLoop ident [] [])

/-! ### The words -/

/-- Where an upper-case letter follows a lower-case one. -/
def transition (c d : UInt8) : Bool := isLower c && isUpper d

/-- The words of an identifier, in its own spelling: they end at underscores and at transitions. -/
def identifierWords (ident : Bytes) : List Bytes := Words.split underscore transition ident

/-- Where the loop starts a word: at an upper-case letter after a letter. -/
def capital (c d : UInt8) : Bool := isLower (toLower c) && isUpper d

theorem toNat_toLower (c : UInt8) :
    (toLower c).toNat = if isUpper c then c.toNat + 0x20 else c.toNat := by
  rw [toLower]
  split
  · rename_i h
    simp only [isUpper, decide_eq_true_eq] at h
    rw [UInt8.toNat_ofNat', Nat.mod_eq_of_lt (by omega)]
  · rfl

theorem isLower_toLower (c : UInt8) : isLower (toLower c) = (isLower c || isUpper c) := by
  rw [Bool.eq_iff_iff]
  simp only [isLower, isUpper, toNat_toLower, decide_eq_true_eq, Bool.or_eq_true]
  split <;> omega

theorem isUpper_toLower (c : UInt8) : isUpper (toLower c) = false := by
  rw [Bool.eq_false_iff]
  simp only [isUpper, toNat_toLower, decide_eq_true_eq, ne_eq]
  split <;> omega

theorem isUpper_toUpper (c : UInt8) : isUpper (toUpper c) = (isLower c || isUpper c) := by
  rw [toUpper]
  split
  · rename_i h
    rw [h, Bool.true_or]
    simp only [isLower, isUpper, decide_eq_true_eq] at h ⊢
    rw [UInt8.toNat_ofNat', Nat.mod_eq_of_lt (by omega)]
    omega
  · rename_i h
    rw [Bool.not_eq_true] at h
    rw [h, Bool.false_or]

theorem capital_iff {c d : UInt8} :
    capital c d = true ↔ (isLower c = true ∨ isUpper c = true) ∧ isUpper d = true := by
  simp [capital, isLower_toLower]

theorem transition_capital (c d : UInt8) (h : transition c d = true) : capital c d = true := by
  simp only [transition, Bool.and_eq_true] at h
  exact capital_iff.2 ⟨.inl h.1, h.2⟩

theorem capital_letters (c d : UInt8) (h : capital c d = true) :
    c ≠ underscore ∧ d ≠ underscore := by
  obtain ⟨hc, hd⟩ := capital_iff.1 h
  constructor
  · intro he
    simp [he, isLower, isUpper, underscore] at hc
  · intro he
    simp [he, isUpper, underscore] at hd

@[simp] theorem flush_nil (words : List Bytes) : flush words [] = words := rfl

@[simp] theorem flush_append (words : List Bytes) (cur : Bytes) (c : UInt8) :
    flush words (cur ++ [c]) = words ++ [cur ++ [c]] := by simp [flush]

def lowered (words : List Bytes) : List Bytes := words.map (·.map toLower)

@[simp] theorem lowered_cons (w : Bytes) (ws : List Bytes) :
    lowered (w :: ws) = w.map toLower :: lowered ws := rfl

/-- The loop with no word begun, and with one that ends in `p`. -/
theorem wordsLoop_eq (ident : Bytes) (words : List Bytes) :
    wordsLoop ident words [] = words ++ lowered (Words.split underscore capital ident) ∧
    ∀ pre p, p ≠ underscore → wordsLoop ident words (pre.map toLower ++ [toLower p]) =
      words ++ lowered (Words.attach pre (Words.split underscore capital (p :: ident))) := by
  induction ident generalizing words with
  | nil =>
    constructor
    · simp [wordsLoop, lowered]
    · intro pre p hp
      rw [Words.split_of_not_ends hp rfl]
      simp [wordsLoop, lowered, Words.attach]
  | cons c ident ih =>
    by_cases hc : c = underscore
    · subst hc
      constructor
      · simp only [wordsLoop, if_true, flush_nil, Words.split_sep]
        exact (ih words).1
      · intro pre p hp
        rw [Words.split_of_ends hp (Words.ends_sep p ident), Words.split_sep]
        simp only [wordsLoop, if_true, flush_append, (ih _).1, Words.attach]
        simp
    · have hwords : Words.split underscore capital (c :: ident) ≠ [] := Words.split_ne_nil hc ident
      constructor
      · have h := (ih words).2 [] c hc
        rw [Words.attach_nil hwords] at h
        simpa [wordsLoop, hc] using h
      · intro pre p hp
        have hlast : (pre.map toLower ++ [toLower p]).getLast?.any isLower =
          isLower (toLower p) := by simp
        rw [wordsLoop, if_neg hc, hlast]
        cases hcut : capital p c with
        | true =>
          have h := (ih (words ++ [pre.map toLower ++ [toLower p]])).2 [] c hc
          rw [Words.attach_nil hwords] at h
          rw [Words.split_of_ends hp (by rw [Words.ends_cons hc, hcut])]
          rw [capital, Bool.and_eq_true] at hcut
          rw [if_pos ⟨hcut.2, hcut.1⟩, flush_append]
          simpa [Words.attach] using h
        | false =>
          have h := (ih words).2 (pre ++ [p]) c hc
          rw [Words.split_of_not_ends hp (by rw [Words.ends_cons hc, hcut]), Words.attach_attach]
          rw [capital, Bool.and_eq_false_iff] at hcut
          rw [if_neg (by rintro ⟨hup, hlow⟩; simp [hup, hlow] at hcut)]
          simpa using h

/-- The words that `apply_case` finds. -/
theorem wordsLoop_words (ident : Bytes) :
    wordsLoop ident [] [] = lowered (Words.split underscore capital ident) := by
  simpa using (wordsLoop_eq ident []).1

/-! ### The names -/

theorem joinWords_cons (style : Case) (w : Bytes) (ws : List Bytes) :
    joinWords style (w :: ws) = caseWord style 0 w ++ (ws.map (caseWord style 1)).flatten := by
  have hlater : ∀ i, caseWord style (i + 1) = caseWord style 1 := by
    intro i
    funext word
    cases style <;> rfl
  have hmap : ws.mapIdx (fun _ => caseWord style 1) = ws.map (caseWord style 1) :=
    List.ext_getElem (by simp) (by simp)
  simp only [joinWords, List.mapIdx_cons, hlater, hmap, List.flatten_cons]

/-- Where two styles can tell whether a word begins: at the separator, or at a capital. -/
def separated : Case → Bool
  | .camel | .pascal => false
  | _ => true

/-- The length of a name with separators, the capitals of one without. -/
def weight (style : Case) (name : Bytes) : Nat :=
  if separated style then name.length else name.countP isUpper

/-- The letters at which a later word shows. -/
def shows (style : Case) (c : UInt8) : Bool := separated style || isLower (toLower c)

/-- What the letters of the words weigh. -/
def letterWeight (style : Case) (letters : Bytes) : Nat :=
  if separated style then letters.length else 0

/-- What the first letter weighs: its capital, in the style that has one. -/
def firstWeight (style : Case) (c : Option UInt8) : Nat :=
  if style = .pascal ∧ c.any fun c => isLower (toLower c) then 1 else 0

theorem weight_append (style : Case) (a b : Bytes) :
    weight style (a ++ b) = weight style a + weight style b := by
  cases h : separated style <;> simp [weight, h]

theorem countP_lowered (w : Bytes) : (w.map toLower).countP isUpper = 0 := by
  simp [List.countP_eq_zero, isUpper_toLower]

theorem countP_capitalise (w : Bytes) :
    (capitalise (w.map toLower)).countP isUpper = if w.head?.any fun c =>
      isLower (toLower c) then 1 else 0 := by
  cases w with
  | nil => rfl
  | cons c w =>
    have hup : isUpper (toUpper (toLower c)) = isLower (toLower c) := by
      rw [isUpper_toUpper, isUpper_toLower, Bool.or_false]
    rw [List.map_cons, capitalise, List.countP_cons, countP_lowered, hup, Nat.zero_add]
    rfl

theorem weight_first (style : Case) (w : Bytes) :
    weight style (caseWord style 0 (w.map toLower)) =
      letterWeight style w + firstWeight style w.head? := by
  have hlow := countP_lowered w
  have hcap := countP_capitalise w
  cases style <;>
    simp [weight, separated, caseWord, letterWeight, firstWeight, hlow, hcap, -List.countP_map]

theorem weight_later (style : Case) {w : Bytes} (hw : w ≠ []) :
    weight style (caseWord style 1 (w.map toLower)) =
      letterWeight style w + if w.head?.any (shows style) then 1 else 0 := by
  have hcap := countP_capitalise w
  obtain ⟨c, w, rfl⟩ := List.exists_cons_of_ne_nil hw
  cases hlow : isLower (toLower c) <;> cases style <;>
    simp_all [weight, separated, caseWord, letterWeight, shows, Nat.add_comm]

theorem letterWeight_append (style : Case) (a b : Bytes) :
    letterWeight style (a ++ b) = letterWeight style a + letterWeight style b := by
  cases h : separated style <;> simp [letterWeight, h]

theorem weight_laters (style : Case) {ws : List Bytes} (hws : ∀ w ∈ ws, w ≠ []) :
    weight style ((lowered ws).map (caseWord style 1)).flatten =
      letterWeight style ws.flatten + Words.marked (shows style) ws := by
  induction ws with
  | nil => cases h : separated style <;> simp [weight, letterWeight, h, lowered, Words.marked]
  | cons w ws ih =>
    rw [lowered_cons, List.map_cons, List.flatten_cons, weight_append,
      weight_later style (hws w List.mem_cons_self),
      ih fun w hw => hws w (List.mem_cons_of_mem _ hw), List.flatten_cons, letterWeight_append,
        Words.marked, Words.marked,
      List.countP_cons]
    omega

/-- The letters are the same however they are split; what differs is the words that show. -/
theorem weight_joinWords (style : Case) {ws : List Bytes} (hws : ∀ w ∈ ws, w ≠ []) :
    weight style (joinWords style (lowered ws)) = letterWeight style ws.flatten +
      firstWeight style (ws.head?.bind List.head?) + Words.marked (shows style) ws.tail := by
  cases ws with
  | nil => cases style <;> rfl
  | cons w ws =>
    rw [lowered_cons, joinWords_cons, weight_append, weight_first,
      weight_laters style fun w hw => hws w (List.mem_cons_of_mem _ hw), List.flatten_cons,
        letterWeight_append]
    simp only [List.head?_cons, Option.bind_some, List.tail_cons]
    omega

theorem weight_split (style : Case) (cut : UInt8 → UInt8 → Bool) (ident : Bytes) :
    weight style (joinWords style (lowered (Words.split underscore cut ident))) =
      letterWeight style (ident.filter (· ≠ underscore)) + firstWeight style
        (ident.find? (· ≠ underscore)) +
        Words.marked (shows style) (Words.split underscore cut ident).tail := by
  rw [weight_joinWords style fun w => Words.ne_nil_of_mem_split, Words.flatten_split,
    Words.head_split]

/-- The name is the one that the words of the identifier make exactly where no two capitals stand
side by side. -/
theorem applyCase_eq_iff (ident : Bytes) (style : Case) :
    applyCase ident style = joinWords style (lowered (identifierWords ident)) ↔
      ident.IsChain fun c d => ¬ (isUpper c = true ∧ isUpper d = true) := by
  have hiff : ∀ c d, (capital c d = true → transition c d = true) ↔
    ¬ (isUpper c = true ∧ isUpper d = true) := by
    intro c d
    have hexcl : isLower c = true → isUpper c = false := by
      intro h
      simp only [isLower, isUpper, decide_eq_true_eq, decide_eq_false_iff_not] at h ⊢
      omega
    rw [capital_iff]
    cases hlow : isLower c <;> cases hup : isUpper c <;> cases hd : isUpper d <;>
      simp_all [transition]
  rw [applyCase, wordsLoop_words, identifierWords, ← List.IsChain.iff hiff]
  constructor
  · intro heq
    by_contra hchain
    have hlt := Words.marked_tail_lt (p := shows style) transition_capital capital_letters
      (fun c d hcd _ => by simp [shows, isLower_toLower, (capital_iff.1 hcd).2]) hchain
    have hweight := congrArg (weight style) heq
    rw [weight_split, weight_split] at hweight
    omega
  · intro hchain
    rw [Words.split_congr transition_capital hchain]

/-- `userID` in snake case is `user_i_d`, and its words are `user` and `ID`. -/
theorem applyCase_userID :
    ¬ ∀ ident style, applyCase ident style = joinWords style (lowered (identifierWords ident)) := by
  intro h
  have hsnake := h (str "userID") .snake
  revert hsnake
  decide

end VCodec
