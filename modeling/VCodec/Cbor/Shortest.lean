import VCodec.Cbor.Head

/-!
# Shortest heads

`make_head`, `parse_head` and `shortest()` split the arguments at 24, 2^8, 2^16 and 2^32, each in
its own way. They agree: what is written parses back as a shortest head, and the bytes of a head
that is parsed as shortest are the ones that would be written.
-/

namespace VCodec.Cbor

/-- A head that is not cut, of a major type with an argument and no other form. -/
structure ParsedHead.Definite (h : ParsedHead) : Prop where
  complete : h.length ≠ 0
  argument : h.mt ≠ .simple
  allowed : h.reserved = false
  definite : h.indefinite = false

/-- The bytes that the head at a position takes. -/
def consumed (inp : Bytes) (pos : Nat) : Bytes := (inp.drop pos).take (parseHead inp pos).length

theorem shortest_eq_true {h : ParsedHead} (hshort : h.shortest = true) :
    h.indefinite = false ∧ h.isBreak = false ∧ h.reserved = false := by
  rw [ParsedHead.shortest] at hshort
  split at hshort
  · cases hshort
  · rename_i hnone
    simpa [and_assoc] using hnone

/-- A head that stands for an argument has the bytes of a `Head`. -/
theorem definite_cases {inp : Bytes} {pos : Nat} (hd : (parseHead inp pos).Definite) :
    ∃ (m : Major) (h : Head), m ≠ .simple ∧ parseHead inp pos = h.parsed m ∧
      consumed inp pos = h.bytes m := by
  have hview := parseHead_view inp pos
  unfold consumed
  generalize parseHead inp pos = p at hd hview ⊢
  generalize inp.drop pos = s at hview ⊢
  cases hview with
  | truncated hlen => exact absurd hlen hd.complete
  | brk s => exact absurd rfl hd.argument
  | reserved m hlo hhi s => cases hd.allowed
  | reservedIndefinite hm s => cases hd.allowed
  | indefinite hm s => cases hd.definite
  | head m h s =>
    refine ⟨m, h, hd.argument, rfl, List.take_left' ?_⟩
    rw [Head.bytes_length]
    rfl

/-- The bytes of a shortest head are the ones that its argument is written in. -/
theorem consumed_eq {inp : Bytes} {pos : Nat} (hd : (parseHead inp pos).Definite)
    (hshort : (parseHead inp pos).shortest = true) :
    consumed inp pos = makeHead (parseHead inp pos).mt (parseHead inp pos).value := by
  obtain ⟨m, h, hm, hparsed, hbytes⟩ := definite_cases hd
  rw [hparsed] at hshort ⊢
  have hwidth : h = Head.short h.value h.value_lt :=
    Head.ext_iff.2 ⟨(Head.shortest_parsed hm).1 hshort, rfl⟩
  rw [hbytes]
  show h.bytes m = makeHead m h.value
  rw [makeHead_eq h.value_lt, ← hwidth]

/-- What is parsed where a head was written. -/
theorem parseHead_makeHead {m : Major} {v : Nat} (hv : v < 2 ^ 64) (pre suf : Bytes) :
    parseHead (pre ++ makeHead m v ++ suf) pre.length = (Head.short v hv).parsed m := by
  apply parseHead_head (s := suf)
  rw [List.append_assoc, List.drop_left, makeHead_eq hv]

/-- The three agree for every 64-bit argument. -/
theorem heads_agree :
    (∀ (m : Major) (v : UInt64) (pre suf : Bytes), m ≠ .simple →
      ∃ h, parseHead (pre ++ makeHead m v.toNat ++ suf) pre.length = h ∧ h.mt = m ∧
        h.value = v.toNat ∧
        h.length = (makeHead m v.toNat).length ∧ h.reserved = false ∧ h.isBreak = false ∧
          h.indefinite = false ∧
        h.shortest = true) ∧
    (∀ (inp : Bytes) (pos : Nat), (parseHead inp pos).Definite →
      (parseHead inp pos).shortest = true →
      consumed inp pos = makeHead (parseHead inp pos).mt (parseHead inp pos).value) ∧
    ∀ (inp inp' : Bytes) (pos pos' : Nat), (parseHead inp pos).length ≠ 0 →
      (parseHead inp' pos').length ≠ 0 →
      (parseHead inp pos).mt ≠ .simple → (parseHead inp pos).shortest = true →
        (parseHead inp' pos').shortest = true →
      (parseHead inp pos).mt = (parseHead inp' pos').mt →
        (parseHead inp pos).value = (parseHead inp' pos').value →
      consumed inp pos = consumed inp' pos' := by
  refine ⟨fun m v pre suf hm => ?_, fun inp pos => consumed_eq, ?_⟩
  · have hv : v.toNat < 2 ^ 64 := v.toNat_lt
    refine ⟨_, parseHead_makeHead hv pre suf, rfl, rfl, ?_, rfl, rfl, rfl,
      (Head.shortest_parsed hm).2 rfl⟩
    rw [makeHead_eq hv, Head.bytes_length]
    rfl
  · intro inp inp' pos pos' hlen hlen' hm hshort hshort' hmt hvalue
    obtain ⟨hindef, -, hres⟩ := shortest_eq_true hshort
    obtain ⟨hindef', -, hres'⟩ := shortest_eq_true hshort'
    rw [consumed_eq ⟨hlen, hm, hres, hindef⟩ hshort,
      consumed_eq ⟨hlen', hmt ▸ hm, hres', hindef'⟩ hshort', hmt, hvalue]

/-- A tag with an argument of one byte. -/
theorem heads_agree_tag : consumed [0x00, 0xD8, 0x20, 0x61] 1 = makeHead .tag 32 :=
  heads_agree.2.1 [0x00, 0xD8, 0x20, 0x61] 1 ⟨by decide, by decide, by decide, by decide⟩
    (by decide)

end VCodec.Cbor
