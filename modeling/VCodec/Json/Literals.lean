import VCodec.Json.Strings

/-!
# String literals

The strings of RFC 8259, section 7, and what they denote. A `\u` escape is a UTF-16 code unit: two
may form a pair, and a surrogate that is in none has no meaning. `string_literals` is what the
writer and the reader have in common: a string that is written is read back, and any other literal
is read as the UTF-8 of its characters.
-/

namespace VCodec.Json

variable {o : Options} {inp : Bytes} {s : State}

/-! ### The grammar -/

/-- `HEXDIG`, in either case. -/
structure HexDigit where
  value : Fin 16
  upper : Bool

def HexDigit.byte (d : HexDigit) : UInt8 :=
  UInt8.ofNat (if d.value < 10 then 0x30 + d.value else if d.upper then 0x41 +
    (d.value - 10) else 0x61 + (d.value - 10))

structure CodeUnit where
  d₃ : HexDigit
  d₂ : HexDigit
  d₁ : HexDigit
  d₀ : HexDigit

def CodeUnit.bytes (u : CodeUnit) : Bytes := [u.d₃.byte, u.d₂.byte, u.d₁.byte, u.d₀.byte]

def CodeUnit.value (u : CodeUnit) : Nat :=
  u.d₃.value * 16 ^ 3 + u.d₂.value * 16 ^ 2 + u.d₁.value * 16 + u.d₀.value

def CodeUnit.High (u : CodeUnit) : Prop := 0xD800 ≤ u.value ∧ u.value ≤ 0xDBFF

def CodeUnit.Low (u : CodeUnit) : Prop := 0xDC00 ≤ u.value ∧ u.value ≤ 0xDFFF

instance (u : CodeUnit) : Decidable u.High := inferInstanceAs (Decidable (_ ∧ _))

instance (u : CodeUnit) : Decidable u.Low := inferInstanceAs (Decidable (_ ∧ _))

/-- The escapes of one letter. -/
inductive Letter
  | quote | backslash | slash | b | f | n | r | t

def Letter.byte : Letter → UInt8
  | .quote => 0x22
  | .backslash => 0x5C
  | .slash => 0x2F
  | .b => 0x62
  | .f => 0x66
  | .n => 0x6E
  | .r => 0x72
  | .t => 0x74

def Letter.char : Letter → Char
  | .quote => Char.ofNat 0x22
  | .backslash => Char.ofNat 0x5C
  | .slash => Char.ofNat 0x2F
  | .b => Char.ofNat 0x08
  | .f => Char.ofNat 0x0C
  | .n => Char.ofNat 0x0A
  | .r => Char.ofNat 0x0D
  | .t => Char.ofNat 0x09

/-- `char`. -/
inductive Element
  | plain (c : Char) (h : 0x20 ≤ c.toNat ∧ c.toNat ≠ 0x22 ∧ c.toNat ≠ 0x5C)
  | letter (l : Letter)
  | unit (u : CodeUnit)

def Element.bytes : Element → Bytes
  | .plain c _ => String.utf8EncodeChar c
  | .letter l => [0x5C, l.byte]
  | .unit u => 0x5C :: 0x75 :: u.bytes

def Element.isPlain : Element → Bool
  | .plain _ _ => true
  | _ => false

def body (es : List Element) : Bytes := es.flatMap Element.bytes

/-- `string`. -/
def stringLiteral (es : List Element) : Bytes := 0x22 :: (body es ++ [0x22])

/-- The character of two surrogates. -/
def pairChar (u u' : CodeUnit) : Char :=
  Char.ofNat (0x10000 + (u.value - 0xD800) * 0x400 + (u'.value - 0xDC00))

/-- The characters of a string, if no surrogate stands alone. -/
def denote : List Element → Option (List Char)
  | [] => some []
  | .plain c _ :: es => (denote es).map (c :: ·)
  | .letter l :: es => (denote es).map (l.char :: ·)
  | .unit u :: .unit u' :: es =>
    if u.High then if u'.Low then (denote es).map (pairChar u u' :: ·) else none
    else if u.Low then none
    else (denote (.unit u' :: es)).map (Char.ofNat u.value :: ·)
  | .unit u :: es => if u.High ∨ u.Low then none else (denote es).map (Char.ofNat u.value :: ·)

def encodeChars (cs : List Char) : Bytes := cs.flatMap String.utf8EncodeChar

/-! ### Characters -/

theorem appendUtf8_eq (c : Char) : appendUtf8 c.toNat = String.utf8EncodeChar c := by
  have hc := Utf8.isValidChar c
  rw [Char.toNat] at hc
  rw [String.utf8EncodeChar, appendUtf8, Char.toNat]
  generalize c.val.toNat = v at hc
  by_cases h1 : v < 0x80
  · rw [if_pos h1, if_pos (show v ≤ 0x7F by omega)]
  rw [if_neg h1, if_neg (show ¬ v ≤ 0x7F by omega)]
  by_cases h2 : v < 0x800
  · rw [if_pos h2, if_pos (show v ≤ 0x7FF by omega),
      show v / 64 % 0x20 + 0xC0 = 0xC0 + v / 64 by omega, Nat.add_comm (v % 64)]
  rw [if_neg h2, if_neg (show ¬ v ≤ 0x7FF by omega)]
  by_cases h3 : v < 0x10000
  · rw [if_pos h3, if_pos (show v ≤ 0xFFFF by omega),
      show v / 4096 % 0x10 + 0xE0 = 0xE0 + v / 4096 by omega, Nat.add_comm (v % 64),
      Nat.add_comm (v / 64 % 64)]
  · rw [if_neg h3, if_neg (show ¬ v ≤ 0xFFFF by omega),
      show v / 262144 % 0x8 + 0xF0 = 0xF0 + v / 262144 by omega, Nat.add_comm (v % 64),
      Nat.add_comm (v / 64 % 64), Nat.add_comm (v / 4096 % 64)]

theorem toNat_ofNat {n : Nat} (hn : n.isValidChar) : (Char.ofNat n).toNat = n := by
  rw [Char.ofNat, dif_pos hn]
  rfl

theorem appendUtf8_ofNat {n : Nat} (hn : n.isValidChar) :
    appendUtf8 n = String.utf8EncodeChar (Char.ofNat n) := by
  rw [← appendUtf8_eq, toNat_ofNat hn]

theorem hexValue_byte (d : HexDigit) : hexValue d.byte = some d.value.val := by
  have hall : ∀ (v : Fin 16) (u : Bool), hexValue (HexDigit.byte ⟨v, u⟩) = some v.val := by decide
  exact hall d.value d.upper

theorem hexUnit_of {a b c d : UInt8} {w x y z : Nat} (ha : hexValue a = some w)
    (hb : hexValue b = some x) (hc : hexValue c = some y) (hd : hexValue d = some z) :
    HexUnit [a, b, c, d] (((w * 16 + x) * 16 + y) * 16 + z) := by
  refine ⟨rfl, fun rest => ?_⟩
  show hex4 (a :: b :: c :: d :: rest) = _
  rw [hex4, ha, hb, hc, hd]
  rfl

theorem CodeUnit.hexUnit (u : CodeUnit) : HexUnit u.bytes u.value := by
  have hu := hexUnit_of (hexValue_byte u.d₃) (hexValue_byte u.d₂) (hexValue_byte u.d₁)
    (hexValue_byte u.d₀)
  rw [show u.value = ((u.d₃.value.val * 16 + u.d₂.value) * 16 + u.d₁.value) * 16 + u.d₀.value by
    rw [CodeUnit.value]
    ring]
  exact hu

theorem Letter.simpleEscape (l : Letter) :
    ∃ c, Json.simpleEscape l.byte = some c ∧ String.utf8EncodeChar l.char = [c] := by
  cases l
  all_goals exact ⟨_, rfl, by decide⟩

theorem clean_utf8EncodeChar {c : Char} (h : 0x20 ≤ c.toNat ∧ c.toNat ≠ 0x22 ∧ c.toNat ≠ 0x5C) :
    ∀ b ∈ String.utf8EncodeChar c, needsEscape b = false := by
  intro b hb
  rw [needsEscape_eq_false]
  by_cases hascii : c.toNat ≤ 0x7F
  · rw [Utf8.utf8EncodeChar_ascii hascii, List.mem_singleton] at hb
    have hnat : b.toNat = c.toNat := by
      rw [hb, UInt8.toNat_ofNat']
      omega
    refine ⟨by omega, ?_, ?_⟩
    · rintro rfl
      exact h.2.1 hnat.symm
    · rintro rfl
      exact h.2.2 hnat.symm
  · have hge := (Utf8.Scalar.utf8EncodeChar c).le_of_mem (Utf8.two_le_utf8EncodeChar (by omega)) hb
    refine ⟨by omega, ?_, ?_⟩
    · rintro rfl
      exact absurd hge (by decide)
    · rintro rfl
      exact absurd hge (by decide)

/-! ### What a literal spells -/

theorem encodeChars_cons (c : Char) (cs : List Char) :
    encodeChars (c :: cs) = String.utf8EncodeChar c ++ encodeChars cs :=
  List.flatMap_cons

theorem body_cons (e : Element) (es : List Element) :
    body (e :: es) = e.bytes ++ body es := List.flatMap_cons

theorem spells_plain {c : Char} (h : 0x20 ≤ c.toNat ∧ c.toNat ≠ 0x22 ∧ c.toNat ≠ 0x5C) :
    Spells (Element.plain c h).bytes (String.utf8EncodeChar c) := .self (clean_utf8EncodeChar h)

theorem spells_escape {e out : Bytes} (he : Escapes e out) : Spells (0x5C :: e) out := by
  have h := Spells.escape he .nil
  rw [List.append_nil, List.append_nil] at h
  exact h

theorem spells_letter (l : Letter) :
    Spells (Element.letter l).bytes (String.utf8EncodeChar l.char) := by
  obtain ⟨c, hc, hchar⟩ := l.simpleEscape
  rw [hchar]
  exact spells_escape (escapes_letter hc)

theorem CodeUnit.value_lt (u : CodeUnit) : u.value < 0x10000 := by
  have h₃ := u.d₃.value.isLt
  have h₂ := u.d₂.value.isLt
  have h₁ := u.d₁.value.isLt
  have h₀ := u.d₀.value.isLt
  rw [CodeUnit.value]
  omega

theorem CodeUnit.plain {u : CodeUnit} (hhigh : ¬ u.High) (hlow : ¬ u.Low) :
    u.value < 0xD800 ∨ 0xDFFF < u.value := by
  rw [CodeUnit.High] at hhigh
  rw [CodeUnit.Low] at hlow
  omega

/-- A code unit that is no surrogate is a character. -/
theorem appendUtf8_unit {u : CodeUnit} (hhigh : ¬ u.High) (hlow : ¬ u.Low) :
    appendUtf8 u.value = String.utf8EncodeChar (Char.ofNat u.value) :=
  appendUtf8_ofNat ((CodeUnit.plain hhigh hlow).imp_right fun h =>
    ⟨h, Nat.lt_trans u.value_lt (by decide)⟩)

/-- A pair of surrogates is one. -/
theorem appendUtf8_pair {u u' : CodeUnit} (hhigh : u.High) (hlow : u'.Low) :
    appendUtf8 (0x10000 + (u.value - 0xD800) * 1024 + (u'.value - 0xDC00)) =
      String.utf8EncodeChar (pairChar u u') := by
  apply appendUtf8_ofNat
  right
  rw [CodeUnit.High] at hhigh
  rw [CodeUnit.Low] at hlow
  omega

theorem spells_unit {u : CodeUnit} (hhigh : ¬ u.High) (hlow : ¬ u.Low) :
    Spells (Element.unit u).bytes (String.utf8EncodeChar (Char.ofNat u.value)) := by
  rw [← appendUtf8_unit hhigh hlow]
  exact spells_escape (escapes_unit u.hexUnit (CodeUnit.plain hhigh hlow))

theorem spells_pair {u u' : CodeUnit} (hhigh : u.High) (hlow : u'.Low) :
    Spells ((Element.unit u).bytes ++ (Element.unit u').bytes)
      (String.utf8EncodeChar (pairChar u u')) := by
  rw [← appendUtf8_pair hhigh hlow]
  exact spells_escape (escapes_pair u.hexUnit u'.hexUnit hhigh hlow)

/-- A surrogate that is in no pair. -/
def Lone (u : CodeUnit) (post : List Element) : Prop :=
  u.Low ∨ (u.High ∧ ∀ u' post', post = .unit u' :: post' → ¬ u'.Low)

/-- A literal spells what it denotes. One that denotes nothing has a lone surrogate, and spells
something up to there. -/
theorem body_spells (es : List Element) :
    match denote es with
    | some cs => Spells (body es) (encodeChars cs)
    | none =>
      ∃ pre u post text, es = pre ++ .unit u :: post ∧ Lone u post ∧ Spells (body pre) text := by
  have hstep : ∀ (first es : List Element) (c : Char),
    Spells (body first) (String.utf8EncodeChar c) →
      (match denote es with
        | some cs => Spells (body es) (encodeChars cs)
        | none =>
          ∃ pre u post text, es = pre ++ .unit u :: post ∧ Lone u post ∧ Spells (body pre) text) →
      match (denote es).map (c :: ·) with
      | some cs => Spells (body (first ++ es)) (encodeChars cs)
      | none =>
        ∃ pre u post text, first ++ es = pre ++ .unit u :: post ∧ Lone u post ∧
          Spells (body pre) text := by
    intro first es c hfirst hrest
    cases hden : denote es with
    | some cs =>
      rw [hden] at hrest
      rw [Option.map_some]
      dsimp only
      rw [encodeChars_cons, body, List.flatMap_append]
      exact hfirst.append hrest
    | none =>
      rw [hden] at hrest
      obtain ⟨pre, u, post, text, rfl, hlone, hpre⟩ := hrest
      refine ⟨first ++ pre, u, post, String.utf8EncodeChar c ++ text,
        (List.append_assoc _ _ _).symm, hlone, ?_⟩
      rw [body, List.flatMap_append]
      exact hfirst.append hpre
  have hone : ∀ {e : Element} {text : Bytes}, Spells e.bytes text → Spells (body [e]) text := by
    intro e text h
    rw [body, List.flatMap_singleton]
    exact h
  fun_induction denote es with
  | case1 => exact .nil
  | case2 c h es ih => exact hstep [.plain c h] es c (hone (spells_plain h)) ih
  | case3 l es ih => exact hstep [.letter l] es l.char (hone (spells_letter l)) ih
  | case4 u u' es hhigh hlow ih =>
    have hpair : Spells (body [.unit u, .unit u']) (String.utf8EncodeChar (pairChar u u')) := by
      rw [body_cons, body, List.flatMap_singleton]
      exact spells_pair hhigh hlow
    exact hstep [.unit u, .unit u'] es _ hpair ih
  | case5 u u' es hhigh hlow =>
    refine ⟨[], u, .unit u' :: es, [], rfl, .inr ⟨hhigh, ?_⟩, .nil⟩
    rintro v post ⟨⟩
    exact hlow
  | case6 u u' es hhigh hlow => exact ⟨[], u, .unit u' :: es, [], rfl, .inl hlow, .nil⟩
  | case7 u u' es hhigh hlow ih =>
    exact hstep [.unit u] (.unit u' :: es) _ (hone (spells_unit hhigh hlow)) ih
  | case8 u es hnext hlone =>
    refine ⟨[], u, es, [], rfl, ?_, .nil⟩
    rcases hlone with hhigh | hlow
    · exact .inr ⟨hhigh, fun u' post' heq => absurd heq (hnext u' post')⟩
    · exact .inl hlow
  | case9 u es hnext hlone ih =>
    rw [not_or] at hlone
    exact hstep [.unit u] es _ (hone (spells_unit hlone.1 hlone.2)) ih

/-! ### Reading a literal -/

theorem ascii_digit (d : HexDigit) : d.byte.toNat ≤ 0x7F := by
  have hall : ∀ (v : Fin 16) (u : Bool), (HexDigit.byte ⟨v, u⟩).toNat ≤ 0x7F := by decide
  exact hall d.value d.upper

theorem valid_bytes (e : Element) : Utf8.Valid e.bytes := by
  cases e with
  | plain c h =>
    have hvalid := Utf8.Valid.cons (Utf8.Scalar.utf8EncodeChar c) .nil
    rw [List.append_nil] at hvalid
    exact hvalid
  | letter l =>
    refine .ascii_cons (by decide) (.ascii_cons ?_ .nil)
    cases l
    all_goals decide
  | unit u =>
    refine .ascii_cons (by decide) (.ascii_cons (by decide) (.of_ascii ?_))
    intro b hb
    simp only [CodeUnit.bytes, List.mem_cons, List.not_mem_nil, or_false] at hb
    rcases hb with rfl | rfl | rfl | rfl
    all_goals exact ascii_digit _

theorem valid_body (es : List Element) : Utf8.Valid (body es) := by
  induction es with
  | nil => exact .nil
  | cons e es ih =>
    rw [body_cons]
    exact (valid_bytes e).append ih

theorem backslash_bytes (e : Element) : 0x5C ∈ e.bytes ↔ e.isPlain = false := by
  cases e with
  | plain c h =>
    refine iff_of_false (fun hmem => ?_) (Bool.noConfusion)
    have hclean := clean_utf8EncodeChar h _ hmem
    exact absurd hclean (by decide)
  | letter l => exact iff_of_true List.mem_cons_self rfl
  | unit u => exact iff_of_true List.mem_cons_self rfl

theorem borrowed_body (es : List Element) : decide (0x5C ∉ body es) = es.all Element.isPlain := by
  induction es with
  | nil => rfl
  | cons e es ih =>
    rw [body_cons, List.all_cons, ← ih]
    have he := backslash_bytes e
    cases hplain : e.isPlain with
    | true =>
      have hno : 0x5C ∉ e.bytes := fun hmem => by rw [he.1 hmem] at hplain; cases hplain
      simp [hno]
    | false =>
      have hyes : 0x5C ∈ e.bytes := he.2 hplain
      simp [hyes]

/-- A pair needs the escape of a low surrogate. -/
theorem lone_next {u : CodeUnit} {post : List Element} {rest tail : Bytes} {v : Nat}
    (hlone : Lone u post) (hhigh : u.High)
    (hnext : body post ++ 0x22 :: rest = 0x5C :: 0x75 :: tail) (hv : hex4 tail = some v) :
    ¬ (0xDC00 ≤ v ∧ v ≤ 0xDFFF) := by
  cases post with
  | nil => cases hnext
  | cons e post =>
    rw [body_cons, List.append_assoc] at hnext
    cases e with
    | plain c h =>
      obtain ⟨b, bs, hb⟩ := List.exists_cons_of_ne_nil (String.utf8EncodeChar_ne_nil (c := c))
      have hclean := clean_utf8EncodeChar h b (by rw [hb]; exact List.mem_cons_self)
      rw [Element.bytes, hb] at hnext
      obtain ⟨rfl, -⟩ := List.cons.inj hnext
      exact absurd hclean (by decide)
    | letter l =>
      obtain ⟨-, htail⟩ := List.cons.inj hnext
      obtain ⟨hl, -⟩ := List.cons.inj htail
      cases l
      all_goals exact absurd hl (by decide)
    | unit u' =>
      obtain ⟨-, htail⟩ := List.cons.inj hnext
      obtain ⟨-, rfl⟩ := List.cons.inj htail
      have hval := u'.hexUnit.2 (body post ++ 0x22 :: rest)
      obtain rfl : u'.value = v := Option.some.inj (hval.symm.trans hv)
      rcases hlone with hlow | ⟨-, hno⟩
      · rw [CodeUnit.High] at hhigh
        rw [CodeUnit.Low] at hlow
        omega
      · exact hno u' post rfl

/-- A literal is read as the UTF-8 of what it denotes, and refused if it denotes nothing. -/
theorem parseString_literal
    (es : List Element) (rest : Bytes) (hdrop : inp.drop s.pos = stringLiteral es ++ rest) :
    match denote es with
    | some cs => parseString o inp s =
        .ok { text := encodeChars cs, borrowed := es.all Element.isPlain, rawLength := (stringLiteral es).length }
          (s.advance (stringLiteral es).length)
    | none => ∃ e, parseString o inp s = .error e s ∧ e.code = .invalidEscape := by
  have hlength : (stringLiteral es).length = (body es).length + 2 := by
    rw [stringLiteral, List.length_cons, List.length_append, List.length_singleton]
  have hopen : inp.drop s.pos = 0x22 :: (body es ++ 0x22 :: rest) := by
    rw [hdrop, stringLiteral, List.cons_append, List.append_assoc, List.singleton_append]
  have hspells := body_spells es
  cases hden : denote es with
  | some cs =>
    rw [hden] at hspells
    rw [← borrowed_body, hlength]
    exact parseString_spells hspells (fun _ => valid_body es) hopen
  | none =>
    rw [hden] at hspells
    obtain ⟨pre, u, post, text, rfl, hlone, hpre⟩ := hspells
    have hraw : inp.drop s.pos = 0x22 ::
      (body pre ++ 0x5C :: (0x75 :: (u.bytes ++ (body post ++ 0x22 :: rest)))) := by
      rw [hopen, body, List.flatMap_append, List.flatMap_cons, List.append_assoc, List.append_assoc]
      rfl
    have hescape := drop_add_of (drop_succ_of hraw)
    have hbad : ∃ e, readEscape inp s.pos (s.pos + 1 + (body pre).length) = .error e ∧
      e.code = .invalidEscape := by
      by_cases hhigh : u.High
      · exact readEscape_high u.hexUnit hhigh hescape fun tail v hnext hv =>
          lone_next hlone hhigh hnext hv
      · exact readEscape_low u.hexUnit (hlone.resolve_right fun h => hhigh h.1) hescape
    obtain ⟨e, hread, hcode⟩ := hbad
    exact ⟨e, parseString_rejects hpre hraw hread, hcode⟩

/-! ### Reading what was written -/

theorem hexValue_upper {n : Nat} (hn : n < 16) : hexValue (hexUpper.getD n 0) = some n := by
  have hall : ∀ v : Fin 16, hexValue (hexUpper.getD v.val 0) = some v.val := by decide
  exact hall ⟨n, hn⟩

theorem spells_putEscape {c : UInt8} (hc : needsEscape c = true) : Spells (putEscape c) [c] := by
  rw [putEscape]
  split_ifs with h1 h2 h3 h4 h5 h6 h7
  · rw [h1]
    exact spells_escape (escapes_letter rfl)
  · rw [h2]
    exact spells_escape (escapes_letter rfl)
  · rw [h3]
    exact spells_escape (escapes_letter rfl)
  · rw [h4]
    exact spells_escape (escapes_letter rfl)
  · rw [h5]
    exact spells_escape (escapes_letter rfl)
  · rw [h6]
    exact spells_escape (escapes_letter rfl)
  · rw [h7]
    exact spells_escape (escapes_letter rfl)
  · have hlt : c.toNat < 0x20 := by
      rw [needsEscape, decide_eq_true_iff] at hc
      exact hc.resolve_right fun h => h.elim h1 h2
    have hzero : hexValue 0x30 = some 0 := rfl
    have hunit := hexUnit_of hzero hzero (hexValue_upper (show c.toNat / 16 < 16 by omega))
      (hexValue_upper (show c.toNat % 16 < 16 by omega))
    have hvalue : ((0 * 16 + 0) * 16 + c.toNat / 16) * 16 + c.toNat % 16 = c.toNat := by omega
    rw [hvalue] at hunit
    have hout : appendUtf8 c.toNat = [c] := by
      rw [appendUtf8, if_pos (by omega), UInt8.ofNat_toNat]
    rw [← hout]
    exact spells_escape (escapes_unit hunit (.inl (by omega)))

theorem escaped_cons (c : UInt8) (text : Bytes) :
    escaped (c :: text) = escapeByte c ++ escaped text := List.flatMap_cons

theorem spells_escaped (text : Bytes) : Spells (escaped text) text := by
  induction text with
  | nil => exact .nil
  | cons c text ih =>
    rw [escaped_cons, escapeByte]
    split
    · rename_i hc
      exact (spells_putEscape hc).append ih
    · rename_i hc
      exact .plain (by simpa using hc) ih

theorem ascii_hexUpper (n : Nat) : (hexUpper.getD n 0).toNat ≤ 0x7F := by
  by_cases hn : n < 16
  · have hall : ∀ v : Fin 16, (hexUpper.getD v.val 0).toNat ≤ 0x7F := by decide
    exact hall ⟨n, hn⟩
  · have hnone : hexUpper[n]? = none := List.getElem?_eq_none (Nat.not_lt.1 hn)
    rw [List.getD_eq_getElem?_getD, hnone]
    decide

theorem ascii_putEscape {c b : UInt8} (hb : b ∈ putEscape c) : b.toNat ≤ 0x7F := by
  have htwo : ∀ x : UInt8, x.toNat ≤ 0x7F → b ∈ [0x5C, x] → b.toNat ≤ 0x7F := by
    intro x hx hmem
    simp only [List.mem_cons, List.not_mem_nil, or_false] at hmem
    rcases hmem with rfl | rfl
    · decide
    · exact hx
  rw [putEscape] at hb
  split_ifs at hb
  · exact htwo _ (by decide) hb
  · exact htwo _ (by decide) hb
  · exact htwo _ (by decide) hb
  · exact htwo _ (by decide) hb
  · exact htwo _ (by decide) hb
  · exact htwo _ (by decide) hb
  · exact htwo _ (by decide) hb
  · simp only [List.mem_cons, List.not_mem_nil, or_false] at hb
    rcases hb with rfl | rfl | rfl | rfl | rfl | rfl
    · decide
    · decide
    · decide
    · decide
    · exact ascii_hexUpper _
    · exact ascii_hexUpper _

theorem escaped_self {text : Bytes} (h : ∀ b ∈ text, needsEscape b = false) :
    escaped text = text := by
  induction text with
  | nil => rfl
  | cons c text ih =>
    rw [escaped_cons, ih fun b hb => h b (List.mem_cons_of_mem _ hb), escapeByte,
      h c List.mem_cons_self]
    rfl

/-- Escapes are ASCII, and so is what they replace. -/
theorem valid_escaped {text : Bytes} (h : Utf8.Valid text) : Utf8.Valid (escaped text) := by
  induction h with
  | nil => exact .nil
  | @cons c text hc _ ih =>
    rw [escaped, List.flatMap_append]
    refine .append ?_ ih
    by_cases hlen : 2 ≤ c.length
    · have hsame : escaped c = c := by
        refine escaped_self fun b hb => ?_
        have hge := hc.le_of_mem hlen hb
        rw [needsEscape_eq_false]
        refine ⟨by omega, ?_, ?_⟩
        · rintro rfl
          exact absurd hge (by decide)
        · rintro rfl
          exact absurd hge (by decide)
      rw [← escaped, hsame, ← List.append_nil c]
      exact .cons hc .nil
    · cases hc with
      | @one a ha =>
        refine .of_ascii fun b hb => ?_
        rw [List.flatMap_singleton, escapeByte] at hb
        split at hb
        · exact ascii_putEscape hb
        · rw [List.mem_singleton] at hb
          rw [hb]
          exact ha
      | two _ _ _ => exact absurd le_rfl hlen
      | three _ _ => exact absurd (Nat.le_succ 2) hlen
      | four _ _ _ => exact absurd (Nat.le_add_right 2 2) hlen

theorem borrowed_escaped (text : Bytes) :
    decide (0x5C ∉ escaped text) = text.all fun c => ¬ needsEscape c := by
  induction text with
  | nil => rfl
  | cons c text ih =>
    rw [escaped_cons, List.all_cons, ← ih, escapeByte]
    cases hc : needsEscape c with
    | true =>
      have hmem : 0x5C ∈ putEscape c := by
        rw [putEscape]
        split_ifs
        all_goals exact List.mem_cons_self
      simp [hmem]
    | false =>
      have hne := (needsEscape_eq_false.1 hc).2.2
      simp [Ne.symm hne]

/-- What is written is read back, from wherever it stands, and nothing behind it is read. -/
theorem parseString_writeString {validate : Bool} {text : Bytes} (out : Bytes)
    (hvalid : validate = true ∨ o.validateUtf8 = true → Utf8.Valid text) :
    ∃ lit, writeString validate out text = .ok (out ++ lit) ∧
      ∀ (inp : Bytes) (s : State) (rest : Bytes), inp.drop s.pos = lit ++ rest →
        parseString o inp s =
          .ok { text, borrowed := text.all fun c => ¬ needsEscape c, rawLength := lit.length }
          (s.advance lit.length) := by
  have hwrites : (if validate then validateUtf8 text else none) = none := by
    split
    · rename_i hv
      exact validateUtf8_eq_none.2 (hvalid (.inl hv))
    · rfl
  refine ⟨0x22 :: (escaped text ++ [0x22]), ?_, fun inp s rest hdrop => ?_⟩
  · rw [writeString, hwrites]
    dsimp only
    rw [escapeLoop_eq, List.nil_append, List.append_assoc, List.append_assoc]
    rfl
  · have hopen : inp.drop s.pos = 0x22 :: (escaped text ++ 0x22 :: rest) := by
      rw [hdrop, List.cons_append, List.append_assoc, List.singleton_append]
    have hread := parseString_spells (o := o) (spells_escaped text)
      (fun hv => valid_escaped (hvalid (.inr hv))) hopen
    rw [← borrowed_escaped, hread]
    rw [List.length_cons, List.length_append, List.length_singleton]
    rfl

/-- Written strings come back, and literals are read as what they denote. -/
theorem string_literals (o : Options) :
    (∀ (validate : Bool) (out text : Bytes),
      (validate = true ∨ o.validateUtf8 = true → Utf8.Valid text) →
      ∃ lit, writeString validate out text = .ok (out ++ lit) ∧
        ∀ (inp : Bytes) (s : State) (rest : Bytes), inp.drop s.pos = lit ++ rest →
          parseString o inp s =
            .ok { text, borrowed := text.all fun c => ¬ needsEscape c, rawLength := lit.length }
            (s.advance lit.length)) ∧
      ∀ (es : List Element) (inp : Bytes) (s : State) (rest : Bytes),
        inp.drop s.pos = stringLiteral es ++ rest →
        match denote es with
        | some cs => parseString o inp s =
            .ok { text := encodeChars cs, borrowed := es.all Element.isPlain, rawLength := (stringLiteral es).length }
              (s.advance (stringLiteral es).length)
        | none => ∃ e, parseString o inp s = .error e s ∧ e.code = .invalidEscape :=
  ⟨fun _ out _ hvalid => parseString_writeString out hvalid,
    fun es _ _ rest hdrop => parseString_literal es rest hdrop⟩

/-- A pair of surrogates. -/
def grin : List Element :=
  [.unit ⟨⟨13, true⟩, ⟨8, true⟩, ⟨3, true⟩, ⟨13, false⟩⟩,
    .unit ⟨⟨13, true⟩, ⟨14, true⟩, ⟨0, true⟩, ⟨0, true⟩⟩]

theorem string_literals_grin :
    parseString {} (stringLiteral grin) {} =
      .ok { text := [0xF0, 0x9F, 0x98, 0x80], borrowed := false, rawLength := 14 } { pos := 14 } := by
  have hread := (string_literals {}).2 grin (stringLiteral grin) {} [] (List.append_nil _).symm
  have hden : denote grin = some [Char.ofNat 0x1F600] := by decide
  have htext : encodeChars [Char.ofNat 0x1F600] = [0xF0, 0x9F, 0x98, 0x80] := by decide
  rw [hden] at hread
  dsimp only at hread
  rw [htext] at hread
  exact hread

end VCodec.Json
