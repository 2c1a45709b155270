import Mathlib.Data.List.TakeWhile
import VCodec.Core.Annotations
import VCodec.Json.Read
import VCodec.Library.Base64

/-!
# Bytes as text

The encoders of base 64 and hexadecimal beside the decoders that the reader uses. The decoder of
base 64 takes off every trailing `=` before it looks at the length, so it does not see how many
there were.
-/

namespace VCodec.Json

/-! ### The encoders -/

/-- `b64_std` and `b64_url`. -/
def b64Table (url : Bool) : Bytes :=
  if url then str "ABCDEFGHIJKLMNOPQRSTUVWXYZabcdefghijklmnopqrstuvwxyz0123456789-_"
  else str "ABCDEFGHIJKLMNOPQRSTUVWXYZabcdefghijklmnopqrstuvwxyz0123456789+/"

def b64Letter (url : Bool) (d : Nat) : UInt8 := (b64Table url).getD d 0

/-- The text that is appended. Standard base 64 is padded, `base64url` is not. -/
def base64Encode (url : Bool) : Bytes → Bytes
  | x :: y :: z :: inp =>
    let v := x.toNat * 2 ^ 16 + y.toNat * 2 ^ 8 + z.toNat
    b64Letter url (v / 2 ^ 18 % 64) :: b64Letter url (v / 2 ^ 12 % 64) :: b64Letter url
      (v / 2 ^ 6 % 64) ::
      b64Letter url (v % 64) :: base64Encode url inp
  | [x, y] =>
    let v := x.toNat * 2 ^ 16 + y.toNat * 2 ^ 8
    [b64Letter url (v / 2 ^ 18 % 64), b64Letter url (v / 2 ^ 12 % 64),
      b64Letter url (v / 2 ^ 6 % 64)] ++
      if url then [] else str "="
  | [x] =>
    let v := x.toNat * 2 ^ 16
    [b64Letter url (v / 2 ^ 18 % 64), b64Letter url (v / 2 ^ 12 % 64)] ++
      if url then [] else str "=="
  | [] => []

def hexDigits : Bytes := str "0123456789abcdef"

def hexEncode (inp : Bytes) : Bytes :=
  inp.flatMap fun b => [hexDigits.getD (b.toNat / 16) 0, hexDigits.getD (b.toNat % 16) 0]

/-- `base64_decode`, which appends to what it is given. -/
def base64DecodeInto (url : Bool) (s out : Bytes) : Option Bytes :=
  let s := (s.reverse.dropWhile (· = 0x3D)).reverse
  if s.length % 4 = 1 then none else base64Loop url s 0 0 out

/-! ### The alphabets -/

theorem b64Value_letter (url : Bool) {d : Nat} (hd : d < 64) :
    b64Value url (b64Letter url d) = some d := by
  have hall : ∀ (url : Bool) (d : Fin 64), b64Value url (b64Letter url d) = some d.val := by
    decide +kernel
  exact hall url ⟨d, hd⟩

theorem b64Letter_value {url : Bool} {c : UInt8} {d : Nat} (h : b64Value url c = some d) :
    d < 64 ∧ b64Letter url d = c := by
  have hall : ∀ (url : Bool) (n : Fin 256), ∀ d ∈ b64Value url (UInt8.ofNat n),
      d < 64 ∧ b64Letter url d = UInt8.ofNat n := by decide +kernel
  have hc := hall url ⟨c.toNat, c.toNat_lt⟩ d
  rw [UInt8.ofNat_toNat] at hc
  exact hc h

theorem b64Value_eq_some {url : Bool} {c : UInt8} {d : Nat} :
    b64Value url c = some d ↔ d < 64 ∧ b64Letter url d = c :=
  ⟨b64Letter_value, fun ⟨hd, hc⟩ => hc ▸ b64Value_letter url hd⟩

theorem b64Value_pad (url : Bool) : b64Value url 0x3D = none := by cases url <;> rfl

theorem b64Letter_ne_pad {url : Bool} {d : Nat} (hd : d < 64) : b64Letter url d ≠ 0x3D := by
  intro h
  have hvalue := b64Value_letter url hd
  rw [h, b64Value_pad] at hvalue
  cases hvalue

/-- The digits of a text, if it has only letters. -/
theorem letters_or (url : Bool) (s : Bytes) :
    (∃ ds : List Nat, (∀ d ∈ ds, d < 64) ∧ s = ds.map (b64Letter url)) ∨
      ∃ c ∈ s, b64Value url c = none := by
  induction s with
  | nil => exact .inl ⟨[], by simp, rfl⟩
  | cons c s ih =>
    cases hc : b64Value url c with
    | none => exact .inr ⟨c, List.mem_cons_self, hc⟩
    | some d =>
      obtain ⟨hd, rfl⟩ := b64Value_eq_some.1 hc
      rcases ih with ⟨ds, hds, rfl⟩ | ⟨c', hmem, hc'⟩
      · exact .inl ⟨d :: ds, by simpa [hd] using hds, rfl⟩
      · exact .inr ⟨c', List.mem_cons_of_mem _ hmem, hc'⟩

/-! ### The loop of the decoder -/

theorem ofNat_congr {m n : Nat} (h : m % 256 = n % 256) : UInt8.ofNat m = UInt8.ofNat n := by
  rw [← UInt8.toNat_inj, UInt8.toNat_ofNat', UInt8.toNat_ofNat']
  exact h

theorem base64Loop_letter (url : Bool) {d : Nat} (hd : d < 64) (s : Bytes) (acc bits : Nat)
    (out : Bytes) :
    base64Loop url (b64Letter url d :: s) acc bits out =
      if 8 ≤ bits + 6 then
        base64Loop url s ((acc * 64 + d) % 2 ^ 32) (bits + 6 - 8)
          (out ++ [UInt8.ofNat ((acc * 64 + d) % 2 ^ 32 / 2 ^ (bits + 6 - 8))])
      else base64Loop url s ((acc * 64 + d) % 2 ^ 32) (bits + 6) out := by
  simp [base64Loop, b64Value_letter url hd]

@[simp] theorem base64Loop_nil (url : Bool) (acc bits : Nat) (out : Bytes) :
    base64Loop url [] acc bits out = some out := rfl

/-! The byte that the accumulator gives does not depend on the bits that it held two letters
before. -/

theorem first_byte (acc a b : Nat) :
    UInt8.ofNat (((acc * 64 + a) % 2 ^ 32 * 64 + b) % 2 ^ 32 / 2 ^ 4) =
      UInt8.ofNat (a * 4 + b / 16) :=
  ofNat_congr (by omega)

theorem second_byte (acc b c : Nat) :
    UInt8.ofNat (((acc * 64 + b) % 2 ^ 32 * 64 + c) % 2 ^ 32 / 2 ^ 2) =
      UInt8.ofNat (b % 16 * 16 + c / 4) :=
  ofNat_congr (by omega)

theorem third_byte (acc c d : Nat) :
    UInt8.ofNat (((acc * 64 + c) % 2 ^ 32 * 64 + d) % 2 ^ 32 / 2 ^ 0) =
      UInt8.ofNat (c % 4 * 64 + d) :=
  ofNat_congr (by omega)

/-- The loop from a group boundary, whatever the accumulator still holds of the groups before. -/
theorem base64Loop_digits (url : Bool) {ds : List Nat} (hds : ∀ d ∈ ds, d < 64) (acc : Nat)
    (out : Bytes) :
    base64Loop url (ds.map (b64Letter url)) acc 0 out = some (out ++ Base64.bytes ds) := by
  fun_induction Base64.bytes ds generalizing acc out with
  | case1 a b c d ds ih =>
    simp only [List.forall_mem_cons] at hds
    obtain ⟨ha, hb, hc, hd, hds⟩ := hds
    simp only [List.map_cons, base64Loop_letter url ha, base64Loop_letter url hb,
      base64Loop_letter url hc,
      base64Loop_letter url hd, Nat.reduceAdd, Nat.reduceSub, Nat.reduceLeDiff, if_true, if_false]
    rw [ih hds, first_byte, second_byte, third_byte]
    simp
  | case2 a b c =>
    simp only [List.forall_mem_cons] at hds
    obtain ⟨ha, hb, hc, -⟩ := hds
    simp only [List.map_cons, List.map_nil, base64Loop_letter url ha, base64Loop_letter url hb,
      base64Loop_letter url hc,
      Nat.reduceAdd, Nat.reduceSub, Nat.reduceLeDiff, if_true, if_false, base64Loop_nil]
    rw [first_byte, second_byte]
    simp
  | case3 a b =>
    simp only [List.forall_mem_cons] at hds
    obtain ⟨ha, hb, -⟩ := hds
    simp only [List.map_cons, List.map_nil, base64Loop_letter url ha, base64Loop_letter url hb,
      Nat.reduceAdd,
      Nat.reduceSub, Nat.reduceLeDiff, if_true, if_false, base64Loop_nil]
    rw [first_byte]
  | case4 ds h₄ h₃ h₂ =>
    rcases ds with _ | ⟨a, _ | ⟨b, _ | ⟨c, _ | ⟨d, ds⟩⟩⟩⟩
    · simp
    · simp only [List.forall_mem_cons] at hds
      simp [base64Loop_letter url hds.1]
    · exact absurd rfl (h₂ a b)
    · exact absurd rfl (h₃ a b c)
    · exact absurd rfl (h₄ a b c d ds)

theorem base64Loop_invalid {url : Bool} {s : Bytes} (h : ∃ c ∈ s, b64Value url c = none)
    (acc bits : Nat) (out : Bytes) :
    base64Loop url s acc bits out = none := by
  induction s generalizing acc bits out with
  | nil => simp at h
  | cons c s ih =>
    rw [base64Loop]
    cases hc : b64Value url c with
    | none => rfl
    | some d =>
      obtain ⟨c', hmem, hc'⟩ := h
      have hs : c' ∈ s := by
        rcases List.mem_cons.1 hmem with rfl | hs
        · rw [hc] at hc'
          cases hc'
        · exact hs
      dsimp only
      split <;> exact ih ⟨c', hs, hc'⟩ _ _ _

/-! ### What the decoder accepts -/

/-- The text without the padding behind it, and the length of that. -/
def unpadded (s : Bytes) : Bytes := (s.reverse.dropWhile (· = 0x3D)).reverse

def padCount (s : Bytes) : Nat := (s.reverse.takeWhile (· = 0x3D)).length

theorem unpadded_append (s : Bytes) : s = unpadded s ++ List.replicate (padCount s) 0x3D := by
  have hpad : s.reverse.takeWhile (· = 0x3D) = List.replicate (padCount s) 0x3D := by
    refine List.eq_replicate_of_mem fun c hc => ?_
    simpa using List.mem_takeWhile_imp hc
  have hsplit := List.takeWhile_append_dropWhile (p := (· = 0x3D)) (l := s.reverse)
  rw [hpad] at hsplit
  have hrev := congrArg List.reverse hsplit
  rw [List.reverse_reverse, List.reverse_append, List.reverse_replicate] at hrev
  exact hrev.symm

theorem unpadded_of_append {text : Bytes} (htext : ∀ c ∈ text, c ≠ 0x3D) (p : Nat) :
    unpadded (text ++ List.replicate p 0x3D) = text ∧
      padCount (text ++ List.replicate p 0x3D) = p := by
  have hrep : ∀ c ∈ List.replicate p (0x3D : UInt8), decide (c = 0x3D) = true := by
    intro c hc
    simpa using List.eq_of_mem_replicate hc
  have hrev : ∀ c ∈ text.reverse.head?, decide (c = (0x3D : UInt8)) = false := by
    intro c hc
    simpa using htext c (List.mem_reverse.1 (List.mem_of_mem_head? hc))
  constructor
  · rw [unpadded, List.reverse_append, List.reverse_replicate, List.dropWhile_append_of_pos hrep]
    cases h : text.reverse with
    | nil => simpa using h
    | cons c rest =>
      rw [List.dropWhile_cons_of_neg (by simpa using hrev c (by rw [h]; rfl)), ← h,
        List.reverse_reverse]
  · rw [padCount, List.reverse_append, List.reverse_replicate, List.takeWhile_append_of_pos hrep]
    cases h : text.reverse with
    | nil => simp
    | cons c rest =>
      rw [List.takeWhile_cons_of_neg (by simpa using hrev c (by rw [h]; rfl))]
      simp

/-- The padding that completes the last group. -/
def completePad (n : Nat) : Nat := (4 - n % 4) % 4

/-- A text of the alphabet that stands for the bytes, with its padding complete or absent. -/
def Encodes (url : Bool) (s xs : Bytes) : Prop :=
  ∃ ds : List Nat, (∀ d ∈ ds, d < 64) ∧ Base64.Packs ds xs ∧
    ∃ p, (p = 0 ∨ p = completePad ds.length) ∧ s = ds.map (b64Letter url) ++ List.replicate p 0x3D

theorem letters_ne_pad (url : Bool) {ds : List Nat} (hds : ∀ d ∈ ds, d < 64) :
    ∀ c ∈ ds.map (b64Letter url), c ≠ 0x3D := by
  intro c hc
  obtain ⟨d, hd, rfl⟩ := List.mem_map.1 hc
  exact b64Letter_ne_pad (hds d hd)

theorem base64DecodeInto_digits {url : Bool} {s : Bytes} {ds : List Nat} (hds : ∀ d ∈ ds, d < 64)
    (hs : unpadded s = ds.map (b64Letter url)) (out : Bytes) :
    base64DecodeInto url s out = if ds.length % 4 =
      1 then none else some (out ++ Base64.bytes ds) := by
  have hlen : (unpadded s).length = ds.length := by rw [hs, List.length_map]
  change (if (unpadded s).length % 4 = 1 then none else base64Loop url (unpadded s) 0 0 out) = _
  rw [hlen, hs, base64Loop_digits url hds]

theorem base64DecodeInto_invalid
    {url : Bool} {s : Bytes} (h : ∃ c ∈ unpadded s, b64Value url c = none) (out : Bytes) :
    base64DecodeInto url s out = none := by
  change (if (unpadded s).length % 4 = 1 then none else base64Loop url (unpadded s) 0 0 out) = _
  rw [base64Loop_invalid h, ite_self]

theorem base64DecodeInto_of_encodes
    {url : Bool} {s xs : Bytes} (h : Encodes url s xs) (out : Bytes) :
    base64DecodeInto url s out = some (out ++ xs) := by
  obtain ⟨ds, hds, hpacks, p, -, rfl⟩ := h
  rw [base64DecodeInto_digits hds (unpadded_of_append (letters_ne_pad _ hds) p).1,
    if_neg hpacks.length_mod,
    hpacks.eq_bytes hds]

/-- Where the decoder and the standard agree on a text: its padding is absent or complete, or what
stands before it is not base 64 anyway. -/
def Judged (url : Bool) (s : Bytes) : Prop :=
  padCount s = 0 ∨ padCount s = completePad (unpadded s).length ∨
    (unpadded s).length % 4 = 1 ∨ ∃ c ∈ unpadded s, b64Value url c = none

/-- The decoder accepts exactly the encodings, and appends what they encode, on the texts that do
not hide wrong padding. -/
theorem base64DecodeInto_iff (url : Bool) (s out : Bytes) :
    (∀ r, base64DecodeInto url s out = some r ↔ ∃ xs, Encodes url s xs ∧ r = out ++ xs) ↔
      Judged url s := by
  have hsound : ∀ r, (∃ xs, Encodes url s xs ∧ r = out ++ xs) →
    base64DecodeInto url s out = some r := by
    rintro r ⟨xs, hxs, rfl⟩
    exact base64DecodeInto_of_encodes hxs out
  rcases letters_or url (unpadded s) with ⟨ds, hds, hs⟩ | hbad
  · have hrun := base64DecodeInto_digits hds hs out
    have hlen : (unpadded s).length = ds.length := by rw [hs, List.length_map]
    by_cases hone : ds.length % 4 = 1
    · refine iff_of_true (fun r => ⟨fun h => ?_, hsound r⟩)
        (.inr (.inr (.inl (by rw [hlen, hone]))))
      rw [hrun, if_pos hone] at h
      cases h
    · rw [if_neg hone] at hrun
      have hvalid : ¬ ∃ c ∈ unpadded s, b64Value url c = none := by
        rintro ⟨c, hc, hnone⟩
        rw [hs] at hc
        obtain ⟨d, hd, rfl⟩ := List.mem_map.1 hc
        rw [b64Value_letter url (hds d hd)] at hnone
        cases hnone
      constructor
      · intro h
        -- the padding of the encoding is the padding of the text
        obtain ⟨xs, ⟨ds', hds', -, p, hp, heq⟩, -⟩ := (h _).1 hrun
        obtain ⟨htext, hcount⟩ := unpadded_of_append (letters_ne_pad url hds') p
        rw [← heq] at htext hcount
        rcases hp with hp | hp
        · exact .inl (hcount.trans hp)
        · exact .inr (.inl (by rw [hcount, hp, htext, List.length_map]))
      · intro h r
        refine ⟨fun hr => ?_, hsound r⟩
        rw [hrun, Option.some.injEq] at hr
        refine ⟨_, ⟨ds, hds, Base64.packs_bytes hds hone, padCount s, ?_, ?_⟩, hr.symm⟩
        · rcases h with h | h | h | h
          · exact .inl h
          · exact .inr (by rw [h, hlen])
          · exact absurd (hlen ▸ h) hone
          · exact absurd h hvalid
        · rw [← hs]
          exact unpadded_append s
  · refine iff_of_true (fun r => ⟨fun h => ?_, hsound r⟩) (.inr (.inr (.inr hbad)))
    rw [base64DecodeInto_invalid hbad] at h
    cases h

/-- `QQ=` lacks one `=`, and decodes. -/
theorem base64DecodeInto_short :
    ¬ ∀ (url : Bool) (s out r : Bytes),
      base64DecodeInto url s out = some r ↔ ∃ xs, Encodes url s xs ∧ r = out ++ xs := by
  intro h
  have hrun : base64DecodeInto false (str "QQ=") [] = some (str "A") := by decide
  obtain ⟨xs, ⟨ds, hds, -, p, hp, hs⟩, -⟩ := (h false (str "QQ=") [] (str "A")).1 hrun
  obtain ⟨htext, hcount⟩ := unpadded_of_append (letters_ne_pad false hds) p
  rw [← hs] at htext hcount
  have hone : p = 1 := by
    rw [← hcount]
    decide
  have htwo : ds.length = 2 := by
    have hlen := congrArg List.length htext
    rw [List.length_map] at hlen
    exact hlen.symm
  rw [hone, htwo] at hp
  revert hp
  decide

/-! ### Round trips -/

/-- The padding that standard base 64 puts behind the letters of `n` bytes. -/
def padding (n : Nat) : Bytes := List.replicate ((3 - n % 3) % 3) 0x3D

theorem base64Encode_eq (url : Bool) (xs : Bytes) :
    base64Encode url xs = (Base64.digits xs).map (b64Letter url) ++
      if url then [] else padding xs.length := by
  have hpad : ∀ n, padding (n + 1 + 1 + 1) = padding n := by
    intro n
    rw [padding, padding, show (n + 1 + 1 + 1) % 3 = n % 3 by omega]
  fun_induction base64Encode url xs with
  | case1 x y z inp v ih =>
    have hx := x.toNat_lt
    have hy := y.toNat_lt
    have hz := z.toNat_lt
    simp only [Base64.digits, List.map_cons, List.cons_append, List.length_cons, hpad, ih]
    rw [show v / 2 ^ 18 % 64 = x.toNat / 4 by omega,
      show v / 2 ^ 12 % 64 = x.toNat % 4 * 16 + y.toNat / 16 by omega,
      show v / 2 ^ 6 % 64 = y.toNat % 16 * 4 + z.toNat / 64 by omega, show v % 64 = z.toNat % 64 by
        omega]
  | case2 x y v =>
    have hx := x.toNat_lt
    have hy := y.toNat_lt
    rw [show v / 2 ^ 18 % 64 = x.toNat / 4 by omega,
      show v / 2 ^ 12 % 64 = x.toNat % 4 * 16 + y.toNat / 16 by omega,
      show v / 2 ^ 6 % 64 = y.toNat % 16 * 4 by omega]
    rfl
  | case3 x v =>
    have hx := x.toNat_lt
    rw [show v / 2 ^ 18 % 64 = x.toNat / 4 by omega,
      show v / 2 ^ 12 % 64 = x.toNat % 4 * 16 by omega]
    rfl
  | case4 => cases url <;> rfl

/-- The padding completes the last group. -/
theorem padding_eq (xs : Bytes) :
    padding xs.length = List.replicate (completePad (Base64.digits xs).length) 0x3D := by
  rw [padding, completePad, Base64.length_digits]
  congr 1
  split <;> omega

theorem encodes_digits (url : Bool) (xs : Bytes) :
    Encodes url ((Base64.digits xs).map (b64Letter url)) xs ∧
      Encodes url ((Base64.digits xs).map (b64Letter url) ++ padding xs.length) xs := by
  refine ⟨⟨_, Base64.digits_lt xs, Base64.packs_digits xs, 0, .inl rfl, by simp⟩,
    ⟨_, Base64.digits_lt xs, Base64.packs_digits xs, _, .inr rfl, by rw [padding_eq]⟩⟩

/-- A digit of either case. -/
theorem hexValue_digit {d : Nat} (hd : d < 16) :
    hexValue (hexDigits.getD d 0) = some d ∧ hexValue (toUpper (hexDigits.getD d 0)) = some d := by
  have hall : ∀ d : Fin 16, hexValue (hexDigits.getD d 0) = some d.val ∧
      hexValue (toUpper (hexDigits.getD d 0)) = some d.val := by decide
  exact hall ⟨d, hd⟩

theorem hexEncode_cons (x : UInt8) (xs : Bytes) :
    hexEncode (x :: xs) = hexDigits.getD (x.toNat / 16) 0 :: hexDigits.getD (x.toNat % 16) 0 ::
      hexEncode xs := rfl

theorem hexDecode_encode
    (f : UInt8 → UInt8) (hf : ∀ d < 16, hexValue (f (hexDigits.getD d 0)) = some d) (xs : Bytes) :
    hexDecode ((hexEncode xs).map f) = some xs := by
  induction xs with
  | nil => rfl
  | cons x xs ih =>
    have hx := x.toNat_lt
    have hbyte : UInt8.ofNat (x.toNat / 16 * 16 + x.toNat % 16) = x := by
      rw [Nat.div_add_mod']
      exact UInt8.ofNat_toNat
    rw [hexEncode_cons, List.map_cons, List.map_cons, hexDecode, hf _ (by omega), hf _ (by omega),
      ih]
    exact congrArg (fun b => some (b :: xs)) hbyte

theorem length_hexEncode (xs : Bytes) : (hexEncode xs).length = 2 * xs.length := by
  induction xs with
  | nil => rfl
  | cons x xs ih =>
    rw [hexEncode_cons, List.length_cons, List.length_cons, ih, List.length_cons]
    omega

/-- Every byte string reads back from its text in every spelling, and the texts have the lengths
that the standard gives. -/
theorem text_roundtrip (b : Bytes) :
    (∀ url, base64Decode url (base64Encode url b) = some b) ∧
    (∀ url, ∃ text, base64Encode url b = (if url then text else text ++ padding b.length) ∧
      base64Decode url text = some b ∧ base64Decode url (text ++ padding b.length) = some b) ∧
    hexDecode (hexEncode b) = some b ∧ hexDecode ((hexEncode b).map toUpper) = some b ∧
    (base64Encode false b).length = 4 * ((b.length + 2) / 3) ∧
    (base64Encode true b).length = (4 * b.length + 2) / 3 ∧
    (hexEncode b).length = 2 * b.length := by
  have hspell : ∀ url, base64Decode url ((Base64.digits b).map (b64Letter url)) = some b ∧
      base64Decode url ((Base64.digits b).map (b64Letter url) ++ padding b.length) = some b :=
        fun url =>
    ⟨base64DecodeInto_of_encodes (encodes_digits url b).1 [],
      base64DecodeInto_of_encodes (encodes_digits url b).2 []⟩
  refine ⟨fun url => ?_, fun url => ⟨(Base64.digits b).map (b64Letter url), ?_, hspell url⟩, ?_, ?_,
    ?_, ?_, ?_⟩
  · rw [base64Encode_eq]
    cases url with
    | false => exact (hspell false).2
    | true => simpa using (hspell true).1
  · rw [base64Encode_eq]
    cases url <;> simp
  · simpa using hexDecode_encode id (fun d hd => (hexValue_digit hd).1) b
  · exact hexDecode_encode toUpper (fun d hd => (hexValue_digit hd).2) b
  · rw [base64Encode_eq, List.length_append, List.length_map, Base64.length_digits]
    simp only [padding, Bool.false_eq_true, if_false, List.length_replicate]
    split <;> omega
  · rw [base64Encode_eq, List.length_append, List.length_map, Base64.length_digits]
    simp only [if_true, List.length_nil]
    split <;> omega
  · exact length_hexEncode b

end VCodec.Json
