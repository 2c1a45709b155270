import VCodec.Core.Decimal
import VCodec.Library.Delimited

/-!
# The texts of an error

The headline of an error, its path, and the line that holds both. A path is printed without a
separator between its steps, and the kind of a step is not printed: `.name` is a member or a text
key, `[3]` an index or an integral key. `renderPath_inj` says that nothing else is lost, for the
keys that are printed without an escape.
-/

namespace VCodec.Render

/-! ### Paths -/

/-- `std::isalnum` of the C locale, or one of the two marks. -/
def isPlain (c : UInt8) : Bool :=
  (0x30 ≤ c && c ≤ 0x39) || (0x41 ≤ c && c ≤ 0x5A) || (0x61 ≤ c && c ≤ 0x7A) || c == 0x5F || c ==
    0x2D

/-- A key that is printed as a name. -/
def plain (k : Bytes) : Bool := k ≠ [] && k.all isPlain

def renderStep : PathStep → Bytes
  | .member n => 0x2E :: n
  | .index i => 0x5B :: decimal i ++ [0x5D]
  | .keyInt k => 0x5B :: decimal k ++ [0x5D]
  | .keyText k => if plain k then 0x2E :: k else str "[\"" ++ k ++ str "\"]"

def renderPath (steps : List PathStep) (truncated : Bool) : Bytes :=
  str "$" ++ (if truncated then str ".…[truncated]" else []) ++ steps.flatMap renderStep

/-! ### Headlines -/

/-- A text in quotes. -/
def quoted (s : Bytes) : Bytes := str "'" ++ s ++ str "'"

/-- What follows a part that is there. -/
def after (lead s : Bytes) : Bytes := if s = [] then [] else lead ++ s

def headline (e : Error) : Bytes :=
  match e.code with
  | .unexpectedToken =>
    str "unexpected token" ++ (if e.detail = [] then [] else str " " ++ quoted e.detail) ++
      after (str ", expected ") e.expected
  | .unterminatedString => str "unterminated string"
  | .invalidEscape =>
    str "invalid escape sequence" ++ if e.detail = [] then [] else str " " ++ quoted e.detail
  | .invalidUtf8 => str "invalid UTF-8"
  | .invalidNumber =>
    str "invalid number" ++ if e.detail = [] then [] else str " " ++ quoted e.detail
  | .trailingContent => str "trailing content after value"
  | .depthExceeded =>
    str "nesting depth exceeds " ++ if e.detail = [] then str "the limit" else e.detail
  | .truncated => str "unexpected end of input"
  | .typeMismatch => str "expected " ++ e.expected ++ str ", found " ++ e.found
  | .missingField =>
    str "missing required field " ++ quoted e.detail ++
      if e.expected = [] then [] else str " (key " ++ e.expected ++ str ")"
  | .unknownField => str "unknown field " ++ quoted e.detail
  | .duplicateKey => str "duplicate key " ++ quoted e.detail
  | .outOfRange => str "value " ++ e.detail ++ str " out of range for " ++ e.context
  | .unknownEnumerator => quoted e.detail ++ str " is not a valid " ++ e.context
  | .noVariantAlternative => quoted e.detail ++ str " is not an alternative of " ++ e.context
  | .missingTag => str "missing discriminator " ++ quoted e.detail
  | .escapeInBorrowedString =>
    str "string contains escapes but " ++ e.context ++ str " borrows from the input"
  | .nonTextKey => str "expected text key, found " ++ e.found
  | .malformedItem => str "malformed item" ++ after (str ": ") e.detail
  | .unsupportedSimpleValue => str "unsupported simple value" ++ after (str " ") e.detail
  | .tagMismatch =>
    str "tag mismatch" ++ if e.context = [] then [] else str " on " ++ quoted e.context
  | .nonDeterministic => str "non-deterministic encoding" ++ after (str ": ") e.detail
  | .indefiniteInBorrowedString =>
    str "indefinite-length string but " ++ e.context ++ str " borrows from the input"

/-! ### Notes that both formats add -/

/-- The first two lines of a report. -/
def heading (e : Error) : Bytes :=
  str "error: " ++ headline e ++ str "\n  --> " ++ renderPath e.steps e.truncated ++ [0x0A]

/-- The suggestion for an unknown member, and why it is an error. -/
def noteUnknown (e : Error) : Bytes :=
  (if e.suggestion = [] then [] else str "   |  did you mean '" ++ e.suggestion ++ str "'?\n") ++
    if e.denyUnknown ∧ e.context ≠ [] then str "   |  (" ++ e.context ++
      str " is declared [[=deny_unknown_fields]])\n" else []

/-- The names that are known. -/
def noteCandidates (e : Error) : Bytes :=
  if e.candidates = [] then [] else str "   |  expected one of: " ++
    (str ", ").intercalate e.candidates ++ [0x0A]

/-- The suggestion on a line of its own. -/
def noteSuggestion (e : Error) : Bytes :=
  if e.suggestion = [] then [] else str "   |  " ++ e.suggestion ++ [0x0A]

/-! ### What a path says -/

/-- A step as a reader of the path knows it. -/
inductive Landmark
  | elided
  | name (n : Bytes)
  | position (i : Nat)
  | key (k : Bytes)
  deriving DecidableEq, Repr

/-- The steps of a path, without what kind of value they lead into. -/
def landmark : PathStep → Landmark
  | .member n => .name n
  | .index i => .position i
  | .keyInt k => .position k
  | .keyText k => if plain k then .name k else .key k

def landmarks (steps : List PathStep) (truncated : Bool) : List Landmark :=
  (if truncated then [.elided] else []) ++ steps.map landmark

def Landmark.spell : Landmark → Bytes
  | .elided => str ".…[truncated]"
  | .name n => 0x2E :: n
  | .position i => 0x5B :: decimal i ++ [0x5D]
  | .key k => str "[\"" ++ k ++ str "\"]"

theorem renderStep_eq (s : PathStep) : renderStep s = (landmark s).spell := by
  cases s with
  | member n => rfl
  | index i => rfl
  | keyInt k => rfl
  | keyText k =>
    show (if plain k then 0x2E :: k else str "[\"" ++ k ++ str "\"]") =
      (if plain k then Landmark.name k else .key k).spell
    split <;> rfl

theorem renderPath_eq (steps : List PathStep) (truncated : Bool) :
    renderPath steps truncated = str "$" ++ (landmarks steps truncated).flatMap Landmark.spell := by
  have hsteps : steps.flatMap renderStep = (steps.map landmark).flatMap Landmark.spell := by
    rw [List.flatMap_map]
    exact congrArg (steps.flatMap ·) (funext renderStep_eq)
  rw [renderPath, landmarks, List.flatMap_append, hsteps, List.append_assoc]
  cases truncated <;> rfl

/-! ### Reading a path back -/

def mark (c : UInt8) : Bool := c == 0x2E || c == 0x5B

/-- A name has no mark in it, as no identifier has, and a key no quote. -/
def Landmark.Legible : Landmark → Prop
  | .name n => ∀ c ∈ n, mark c = false
  | .key k => (0x22 : UInt8) ∉ k
  | _ => True

/-- Nothing, or the front of a step. -/
def Begins (s : Bytes) : Prop := s = [] ∨ (∃ r, s = 0x2E :: r) ∨ ∃ c r, s = 0x5B :: c :: r ∧
    (isDigit c = true ∨ c = 0x22)

theorem Begins.mark {s : Bytes} (h : Begins s) : ∀ c ∈ s.head?, mark c = true := by
  rintro c hc
  rcases h with rfl | ⟨r, rfl⟩ | ⟨d, r, rfl, -⟩
  · cases hc
  · cases hc
    rfl
  · cases hc
    rfl

theorem exists_decimal_eq (n : Nat) : ∃ c ds, decimal n = c :: ds ∧ isDigit c = true := by
  obtain ⟨c, ds, h⟩ := List.exists_cons_of_ne_nil (decimal_ne_nil n)
  exact ⟨c, ds, h, isDigit_decimal (h ▸ List.mem_cons_self)⟩

theorem begins_spell (l : Landmark) (rest : Bytes) : Begins (l.spell ++ rest) := by
  cases l with
  | elided => exact .inr (.inl ⟨_, rfl⟩)
  | name n => exact .inr (.inl ⟨_, rfl⟩)
  | position i =>
    obtain ⟨c, ds, hds, hc⟩ := exists_decimal_eq i
    refine .inr (.inr ⟨c, ds ++ [0x5D] ++ rest, ?_, .inl hc⟩)
    rw [Landmark.spell, hds]
    rfl
  | key k => exact .inr (.inr ⟨0x22, k ++ str "\"]" ++ rest, rfl, .inr rfl⟩)

theorem spell_ne_nil (l : Landmark) : l.spell ≠ [] := by
  cases l <;> exact List.cons_ne_nil _ _

/-- The mark for the steps that are left out is no name. -/
theorem elided_ne_name {n r s : Bytes} (hn : ∀ c ∈ n, mark c = false) (hr : Begins r) :
    Landmark.elided.spell ++ s ≠ (Landmark.name n).spell ++ r := by
  intro h
  have htail : [0xE2, 0x80, 0xA6] ++ (str "[truncated]" ++ s) = n ++ r := (List.cons.inj h).2
  have hdots : ∀ c ∈ ([0xE2, 0x80, 0xA6] : Bytes), (! mark c) = true := by
    intro c hc
    simp only [List.mem_cons, List.not_mem_nil, or_false] at hc
    rcases hc with rfl | rfl | rfl <;> rfl
  obtain ⟨-, hrest⟩ :=
    Delimited.append_inj (p := fun c => ! mark c) hdots (fun c hc => by rw [hn c hc]; rfl)
    (fun c hc => by cases hc; rfl) (fun c hc => by rw [hr.mark c hc]; rfl) htail
  rcases hr with rfl | ⟨t, rfl⟩ | ⟨c, t, rfl, hc⟩
  · cases hrest
  · cases (List.cons.inj hrest).1
  · obtain rfl := (List.cons.inj (List.cons.inj hrest).2).1
    rcases hc with hc | hc <;> cases hc

theorem decimal_inj {i j : Nat} (h : decimal i = decimal j) : i = j := by
  rw [← digitsValue_decimal i, h, digitsValue_decimal]

theorem isDigit_ne_bracket {c : UInt8} (h : isDigit c = true) : (c != 0x5D) = true := by
  rw [bne_iff_ne]
  rintro rfl
  cases h

theorem digits_end {i j : Nat} {r s : Bytes} (h : decimal i ++ 0x5D :: r = decimal j ++ 0x5D :: s) :
    i = j ∧ r = s := by
  obtain ⟨hij, hrs⟩ :=
    Delimited.append_inj (p := (· != 0x5D)) (fun c hc => isDigit_ne_bracket (isDigit_decimal hc))
    (fun c hc => isDigit_ne_bracket (isDigit_decimal hc)) (fun c hc => by cases hc; rfl)
      (fun c hc => by cases hc; rfl) h
  exact ⟨decimal_inj hij, (List.cons.inj hrs).2⟩

theorem position_ne_key {i : Nat} {k r s : Bytes} :
    (Landmark.position i).spell ++ r ≠ (Landmark.key k).spell ++ s := by
  intro h
  obtain ⟨c, ds, hds, hc⟩ := exists_decimal_eq i
  rw [Landmark.spell, hds] at h
  obtain rfl : c = 0x22 := (List.cons.inj (List.cons.inj h).2).1
  cases hc

theorem quote_end {k m r s : Bytes} (hk : (0x22 : UInt8) ∉ k) (hm : (0x22 : UInt8) ∉ m)
    (h : (Landmark.key k).spell ++ r = (Landmark.key m).spell ++ s) : k = m ∧ r = s := by
  have hfree : ∀ {k : Bytes}, (0x22 : UInt8) ∉ k → ∀ c ∈ k, (c != 0x22) = true := by
    intro k hk c hc
    rw [bne_iff_ne]
    rintro rfl
    exact hk hc
  have htail : k ++ (str "\"]" ++ r) = m ++ (str "\"]" ++ s) := by
    have h : k ++ str "\"]" ++ r = m ++ str "\"]" ++ s := (List.cons.inj (List.cons.inj h).2).2
    rwa [List.append_assoc, List.append_assoc] at h
  obtain ⟨hkm, hrs⟩ :=
    Delimited.append_inj (p := (· != 0x22)) (hfree hk) (hfree hm) (fun c hc => by cases hc; rfl)
    (fun c hc => by cases hc; rfl) htail
  exact ⟨hkm, List.append_cancel_left hrs⟩

/-- A step ends where the next one begins. -/
theorem spell_split {a b : Landmark} {r s : Bytes} (ha : a.Legible) (hb : b.Legible) (hr : Begins r)
    (hs : Begins s) (h : a.spell ++ r = b.spell ++ s) : a = b ∧ r = s := by
  cases a with
  | elided =>
    cases b with
    | elided => exact ⟨rfl, List.append_cancel_left h⟩
    | name m => exact absurd h (elided_ne_name hb hs)
    | position j => cases (List.cons.inj h).1
    | key m => cases (List.cons.inj h).1
  | name n =>
    cases b with
    | elided => exact absurd h.symm (elided_ne_name ha hr)
    | name m =>
      obtain ⟨hnm, hrs⟩ :=
        Delimited.append_inj (p := fun c => ! mark c) (fun c hc => by rw [ha c hc]; rfl)
        (fun c hc => by rw [hb c hc]; rfl) (fun c hc => by rw [hr.mark c hc]; rfl)
          (fun c hc => by rw [hs.mark c hc]; rfl)
        (List.cons.inj h).2
      exact ⟨congrArg Landmark.name hnm, hrs⟩
    | position j => cases (List.cons.inj h).1
    | key m => cases (List.cons.inj h).1
  | position i =>
    cases b with
    | elided => cases (List.cons.inj h).1
    | name m => cases (List.cons.inj h).1
    | position j =>
      have htail : decimal i ++ 0x5D :: r = decimal j ++ 0x5D :: s := by
        have h : decimal i ++ [0x5D] ++ r = decimal j ++ [0x5D] ++ s := (List.cons.inj h).2
        rwa [List.append_assoc, List.append_assoc] at h
      obtain ⟨hij, hrs⟩ := digits_end htail
      exact ⟨congrArg Landmark.position hij, hrs⟩
    | key m => exact absurd h position_ne_key
  | key k =>
    cases b with
    | elided => cases (List.cons.inj h).1
    | name m => cases (List.cons.inj h).1
    | position j => exact absurd h.symm position_ne_key
    | key m =>
      obtain ⟨hkm, hrs⟩ := quote_end ha hb h
      exact ⟨congrArg Landmark.key hkm, hrs⟩

theorem pathCode : Delimited.Code Landmark.spell Landmark.Legible Begins where
  ends := .inl rfl
  begins := begins_spell
  ne_nil := spell_ne_nil
  split := spell_split

/-- The step can be told from the others: a member with the name of a C++ member, or a key without a
quote. -/
def Legible (s : PathStep) : Prop :=
  match s with
  | .member n => ∀ c ∈ n, mark c = false
  | .keyText k => (0x22 : UInt8) ∉ k
  | _ => True

instance decidableLegible (s : PathStep) : Decidable (Legible s) :=
  match s with
  | .member n => inferInstanceAs (Decidable (∀ c ∈ n, mark c = false))
  | .keyText k => inferInstanceAs (Decidable ((0x22 : UInt8) ∉ k))
  | .index _ => inferInstanceAs (Decidable True)
  | .keyInt _ => inferInstanceAs (Decidable True)

theorem isPlain_mark {c : UInt8} (h : isPlain c = true) : mark c = false := by
  have hall : ∀ n : Fin 256, isPlain (UInt8.ofNat n) = true → mark (UInt8.ofNat n) = false := by
    decide +kernel
  have hc := hall ⟨c.toNat, c.toNat_lt⟩
  rw [UInt8.ofNat_toNat] at hc
  exact hc h

theorem Legible.landmark {s : PathStep} (h : Legible s) : (landmark s).Legible := by
  cases s with
  | member n => exact h
  | index i => exact trivial
  | keyInt k => exact trivial
  | keyText k =>
    show (if plain k then Landmark.name k else .key k).Legible
    split
    · rename_i hk
      rw [plain, Bool.and_eq_true] at hk
      exact fun c hc => isPlain_mark (List.all_eq_true.1 hk.2 c hc)
    · exact h

theorem legible_landmarks {steps : List PathStep} {truncated : Bool} (h : ∀ s ∈ steps, Legible s) :
    ∀ l ∈ landmarks steps truncated, l.Legible := by
  intro l hl
  rcases List.mem_append.1 hl with hl | hl
  · cases truncated with
    | false => cases hl
    | true =>
      obtain rfl := List.mem_singleton.1 hl
      trivial
  · obtain ⟨s, hs, rfl⟩ := List.mem_map.1 hl
    exact (h s hs).landmark

theorem landmark_ne_elided (s : PathStep) : landmark s ≠ .elided := by
  cases s with
  | keyText k =>
    show (if plain k then Landmark.name k else .key k) ≠ .elided
    split <;> exact fun h => by cases h
  | _ => exact fun h => by cases h

theorem landmarks_inj {p q : List PathStep} {a b : Bool} :
    landmarks p a = landmarks q b ↔ p.map landmark = q.map landmark ∧ a = b := by
  have hfirst : ∀ (p q : List PathStep), Landmark.elided :: p.map landmark ≠ q.map landmark := by
    intro p q h
    obtain ⟨s, -, hs⟩ := List.mem_map.1 (h ▸ List.mem_cons_self : Landmark.elided ∈ q.map landmark)
    exact landmark_ne_elided s hs
  cases a <;> cases b
  · exact ⟨fun h => ⟨h, rfl⟩, fun h => h.1⟩
  · exact iff_of_false (fun h => hfirst q p h.symm) fun h => Bool.noConfusion h.2
  · exact iff_of_false (hfirst p q) fun h => Bool.noConfusion h.2
  · exact ⟨fun h => ⟨(List.cons.inj h).2, rfl⟩, fun h => congrArg (Landmark.elided :: ·) h.1⟩

/-- Two paths are printed alike exactly if they agree step by step, up to the kind of a step, and in
whether steps nearer the root are missing. -/
theorem renderPath_inj {p q : List PathStep} {a b : Bool} (hp : ∀ s ∈ p, Legible s)
    (hq : ∀ s ∈ q, Legible s) :
    renderPath p a = renderPath q b ↔ p.map landmark = q.map landmark ∧ a = b := by
  rw [renderPath_eq, renderPath_eq, List.append_cancel_left_eq,
    pathCode.flatMap_inj (legible_landmarks hp) (legible_landmarks hq)]
  exact landmarks_inj

theorem renderPath_inj_keys :
    renderPath [.keyText (str "a b"), .keyInt 7] false =
      renderPath [.keyText (str "a b"), .index 7] false ↔
      [PathStep.keyText (str "a b"), .keyInt 7].map landmark =
        [PathStep.keyText (str "a b"), .index 7].map landmark ∧
        false = false :=
  renderPath_inj (by decide) (by decide)

/-- A key with quotes in it may look like two. -/
example :
    renderPath [.keyText (str "a b\"][\"c d")] false =
      renderPath [.keyText (str "a b"), .keyText (str "c d")] false := by
  decide

end VCodec.Render
