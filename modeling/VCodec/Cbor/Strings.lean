import VCodec.Cbor.Read

/-!
# Reading strings

`readString` returns exactly on the strings of the grammar, a definite one with its payload and a
chunked one with the payloads of its chunks.
-/

namespace VCodec.Cbor

variable {o : Options} {inp : Bytes}

theorem drop_add {pos : Nat} {a r : Bytes} (h : inp.drop pos = a ++ r) :
    inp.drop (pos + a.length) = r := by
  rw [← List.drop_drop, h, List.drop_left]

theorem length_drop {pos : Nat} {r : Bytes} (h : inp.drop pos = r) :
    inp.length - pos = r.length := by
  rw [← h, List.length_drop]

theorem take_drop_add {pos n : Nat} {a b r : Bytes} (h : inp.drop pos = a ++ (b ++ r))
    (hn : b.length = n) :
    (inp.drop (pos + a.length)).take n = b := by
  rw [drop_add h]
  exact List.take_left' hn

@[simp] theorem State.advance_advance (s : State) (m n : Nat) :
    (s.advance m).advance n = s.advance (m + n) := by
  simp [State.advance, Nat.add_assoc]

@[simp] theorem State.advance_pos (s : State) (n : Nat) : (s.advance n).pos = s.pos + n := rfl

@[simp] theorem State.advance_depth (s : State) (n : Nat) : (s.advance n).depth = s.depth := rfl

@[simp] theorem State.advance_zero (s : State) : s.advance 0 = s := rfl

/-- The bytes of a chunk, its head and its payload. -/
theorem Chunk.bytes_length (m : Major) (c : Chunk) :
    (c.bytes m).length = (c.head.bytes m).length + c.payload.length := by
  rw [Chunk.bytes, List.length_append]

/-- A chunk as the reader accepts it. -/
def ChunkOk (o : Options) (t : Bool) (c : Chunk) : Prop :=
  LaxNode (.chunked t [c]) ∧ (o.validateUtf8 = true → Utf8Node (.chunked t [c]))

theorem utf8Node_chunked_cons {t : Bool} {c : Chunk} {cs : List Chunk} :
    Utf8Node (.chunked t (c :: cs)) ↔ Utf8Node (.chunked t [c]) ∧ Utf8Node (.chunked t cs) := by
  cases t <;> simp [Utf8Node]

theorem chunkOk_iff {t : Bool} {cs : List Chunk} :
    (∀ c ∈ cs, ChunkOk o t c) ↔
      LaxNode (.chunked t cs) ∧ (o.validateUtf8 = true → Utf8Node (.chunked t cs)) := by
  induction cs with
  | nil => cases t <;> simp [LaxNode, Utf8Node]
  | cons c cs ih =>
    rw [laxNode_chunked_cons, utf8Node_chunked_cons, List.forall_mem_cons, ih, ChunkOk]
    tauto

theorem utf8_check {t : Bool} {payload : Bytes} :
    (if o.validateUtf8 ∧ strMajor t = .text then validateUtf8 payload else none) = none ↔
      (o.validateUtf8 = true → t = true → Utf8.Valid payload) := by
  have htext : strMajor t = .text ↔ t = true := by cases t <;> simp [strMajor]
  split
  · rename_i h
    rw [validateUtf8_eq_none]
    tauto
  · rename_i h
    rw [not_and, htext] at h
    exact ⟨fun _ hv ht => absurd ht (h hv), fun _ => rfl⟩

/-- One round of the chunk loop that does not meet the break. -/
theorem readChunks_chunk
    {t : Bool} {fuel : Nat} {scratch : Bytes} {s : State} {c : Chunk} {r : Bytes}
    (hc : ChunkOk o t c) (hin : inp.drop s.pos = c.bytes (strMajor t) ++ r) :
    readChunks o inp (strMajor t) (fuel + 1) scratch s =
      readChunks o inp (strMajor t) fuel (scratch ++ c.payload) (s.advance (c.bytes (strMajor t)).length) := by
  have hlen := length_drop hin
  have hne : (inp.drop s.pos).head? ≠ some breakByte := by
    rw [hin]
    intro hhead
    cases hcs : c.bytes (strMajor t) ++ r with
    | nil => rw [hcs] at hhead; cases hhead
    | cons b u =>
      rw [hcs] at hhead
      obtain rfl : b = breakByte := by simpa using hhead
      exact chunk_bytes_ne_break hc.1 hcs
  rw [readChunks]
  obtain ⟨hlax, hutf⟩ := hc
  obtain ⟨k, p⟩ := c
  simp only [LaxNode, List.mem_singleton, forall_eq] at hlax
  simp only [Chunk.bytes] at hin hlen ⊢
  rw [List.append_assoc] at hin
  have hutf' : o.validateUtf8 = true → t = true → Utf8.Valid p := by
    rintro hv rfl
    simpa [Utf8Node] using hutf hv
  cases k with
  | definite h =>
    have hspan := take_drop_add hin hlax
    have hh : parseHead inp s.pos = h.parsed (strMajor t) := parseHead_head hin
    have hhlen := h.bytes_length (strMajor t)
    simp only [ChunkHead.bytes, List.length_append] at hlen hin hspan ⊢
    rw [hhlen] at hspan hlen
    have hmt : ¬ (strMajor t ≠ strMajor t ∨ false = true) := by simp
    have hz : ¬ 1 + h.width.size = 0 := by omega
    have hfit : ¬ inp.length - s.pos - (1 + h.width.size) < h.value := by
      simp only at hlax
      omega
    rw [if_neg (by omega), if_neg hne, hh]
    simp only [Head.parsed, hspan, utf8_check.2 hutf', hhlen, hlax]
    rw [if_neg hz, if_neg hmt, if_neg hfit]
  | reserved ai =>
    obtain ⟨hlo, hhi, rfl⟩ := hlax
    have hh : parseHead inp s.pos = { mt := strMajor t, ai, reserved := true, length := 1 } :=
      parseHead_reserved hlo (by omega) hin
    simp only [ChunkHead.bytes, List.length_append, List.length_singleton, List.append_nil] at hlen ⊢
    have hmt : ¬ (strMajor t ≠ strMajor t ∨ false = true) := by simp
    rw [if_neg (by omega), if_neg hne, hh]
    simp only [List.take_zero, utf8_check.2 hutf']
    rw [if_neg one_ne_zero, if_neg hmt, if_neg (Nat.not_lt_zero _), List.append_nil]

/-- What the chunk loop accepts first: the break, or a chunk. -/
theorem readChunks_cases {t : Bool} {fuel : Nat} {scratch out : Bytes} {s s' : State}
    (h : readChunks o inp (strMajor t) (fuel + 1) scratch s = .ok out s') :
    (∃ r, inp.drop s.pos = breakByte :: r ∧ out = scratch ∧ s' = s.advance 1) ∨
      ∃ c r, ChunkOk o t c ∧ inp.drop s.pos = c.bytes (strMajor t) ++ r := by
  simp only [readChunks] at h
  split at h
  · cases h
  split at h
  · rename_i hhead
    rw [List.head?_eq_some_iff] at hhead
    obtain ⟨r, hr⟩ := hhead
    cases h
    exact .inl ⟨r, hr, rfl, rfl⟩
  rename_i hne
  split at h
  · cases h
  rename_i hlen
  split at h
  · cases h
  rename_i hmt
  split at h
  · cases h
  rename_i hfit
  split at h
  · cases h
  rename_i hutf
  rw [not_or, not_not, Bool.not_eq_true] at hmt
  rw [utf8_check] at hutf
  have hview := parseHead_view inp s.pos
  generalize hp : parseHead inp s.pos = p at hview hlen hmt hfit hutf
  generalize hd : inp.drop s.pos = bs at hview hne
  refine .inr ?_
  cases hview with
  | truncated hz => exact absurd hz hlen
  | brk r => exact absurd rfl hne
  | @reserved m ai hlo hhi r =>
    obtain rfl : m = strMajor t := hmt.1
    refine ⟨⟨.reserved ai, []⟩, r, ⟨?_, fun _ => ?_⟩, rfl⟩
    · simp only [LaxNode, List.mem_singleton, forall_eq, and_true]
      omega
    · cases t <;> simp [Utf8Node, Utf8.Valid.nil]
  | reservedIndefinite hm r => cases hmt.2
  | indefinite hm r => cases hmt.2
  | head m hd' r =>
    obtain rfl : m = strMajor t := hmt.1
    have htotal := length_drop hd
    have hdrop := drop_add hd
    rw [hd'.bytes_length] at hdrop
    simp only [Head.parsed] at hfit hutf
    rw [hdrop] at hutf
    rw [List.length_append, hd'.bytes_length] at htotal
    have hle : hd'.value ≤ r.length := by omega
    refine ⟨⟨.definite hd', r.take hd'.value⟩, r.drop hd'.value, ⟨?_, fun hv => ?_⟩, ?_⟩
    · simp only [LaxNode, List.mem_singleton, forall_eq, List.length_take]
      omega
    · cases t with
      | false => simp [Utf8Node]
      | true => simpa [Utf8Node] using hutf hv rfl
    · rw [Chunk.bytes, ChunkHead.bytes, List.append_assoc, List.take_append_drop]

theorem readChunks_sound {t : Bool} {fuel : Nat} {scratch out : Bytes} {s s' : State}
    (h : readChunks o inp (strMajor t) fuel scratch s = .ok out s') :
    ∃ (cs : List Chunk) (r : Bytes), (∀ c ∈ cs, ChunkOk o t c) ∧
      inp.drop s.pos = cs.flatMap (Chunk.bytes (strMajor t)) ++ breakByte :: r ∧
      out = scratch ++ cs.flatMap Chunk.payload ∧
      s' = s.advance ((cs.flatMap (Chunk.bytes (strMajor t))).length + 1) := by
  induction fuel generalizing scratch s with
  | zero => cases h
  | succ fuel ih =>
    rcases readChunks_cases h with ⟨r, hr, rfl, rfl⟩ | ⟨c, r, hc, hr⟩
    · exact ⟨[], r, by simp, hr, by simp, rfl⟩
    · rw [readChunks_chunk hc hr] at h
      obtain ⟨cs, r', hcs, hin, rfl, rfl⟩ := ih h
      rw [State.advance_pos, drop_add hr] at hin
      refine ⟨c :: cs, r', ?_, ?_, ?_, ?_⟩
      · exact List.forall_mem_cons.2 ⟨hc, hcs⟩
      · rw [hr, hin, List.flatMap_cons, List.append_assoc]
      · rw [List.flatMap_cons, List.append_assoc]
      · rw [State.advance_advance, List.flatMap_cons, List.length_append, Nat.add_assoc]

theorem readChunks_complete
    {t : Bool} {cs : List Chunk} {r : Bytes} {fuel : Nat} {scratch : Bytes} {s : State}
    (hcs : ∀ c ∈ cs, ChunkOk o t c)
    (hin : inp.drop s.pos = cs.flatMap (Chunk.bytes (strMajor t)) ++ breakByte :: r)
    (hfuel : inp.length - s.pos ≤ fuel) :
    readChunks o inp (strMajor t) fuel scratch s =
      .ok (scratch ++ cs.flatMap Chunk.payload)
      (s.advance ((cs.flatMap (Chunk.bytes (strMajor t))).length + 1)) := by
  have hlen := length_drop hin
  rw [List.length_append, List.length_cons] at hlen
  cases fuel with
  | zero => omega
  | succ fuel =>
    induction cs generalizing scratch s fuel with
    | nil =>
      rw [List.flatMap_nil, List.nil_append] at hin
      simp only [readChunks]
      rw [if_neg (by omega), if_pos (by rw [hin]; rfl), List.flatMap_nil, List.append_nil]
      rfl
    | cons c cs ih =>
      rw [List.flatMap_cons, List.append_assoc] at hin
      have hc := hcs c List.mem_cons_self
      have hlen' := length_drop (drop_add hin)
      rw [List.length_append, List.length_cons] at hlen'
      rw [List.flatMap_cons, List.length_append] at hlen
      have hpos : 0 < (c.bytes (strMajor t)).length := by
        rw [Chunk.bytes_length]
        cases c.head with
        | definite h => simp [ChunkHead.bytes, Head.bytes_length]
        | reserved ai => simp [ChunkHead.bytes]
      rw [readChunks_chunk hc hin]
      obtain ⟨fuel, rfl⟩ : ∃ f, fuel = f + 1 := ⟨fuel - 1, by omega⟩
      rw [ih (fun c hc => hcs c (List.mem_cons_of_mem _ hc)) (drop_add hin) hlen' fuel
          (by rw [State.advance_pos]; omega),
        State.advance_advance, List.flatMap_cons, List.flatMap_cons, List.append_assoc,
          List.length_append, Nat.add_assoc]

/-- A definite string is read exactly when the input holds its payload. -/
theorem readString_definite {m : Major} {h : Head} {r : Bytes} {s s' : State} {out : Bytes × Bool}
    (hin : inp.drop s.pos = h.bytes m ++ r) :
    readString o inp (h.parsed m) m s = .ok out s' ↔
      h.value ≤ r.length ∧ out = (r.take h.value, false) ∧
        s' = s.advance ((h.bytes m).length + h.value) := by
  have hlen := length_drop hin
  have hdrop := drop_add hin
  rw [h.bytes_length] at hdrop
  rw [List.length_append, h.bytes_length] at hlen
  simp only [readString, Head.parsed, Bool.false_eq_true, not_false_eq_true, if_true,
    h.bytes_length, hdrop]
  split
  · simp only [reduceCtorEq, false_iff, not_and]
    omega
  · rw [EStateM.Result.ok.injEq]
    constructor
    · rintro ⟨rfl, rfl⟩
      exact ⟨by omega, rfl, rfl⟩
    · rintro ⟨-, rfl, rfl⟩
      exact ⟨rfl, rfl⟩

/-- A chunked string is read exactly when the input holds its chunks and the break, and never under
the validation of deterministic encoding. -/
theorem readString_indefinite
    {t : Bool} {r : Bytes} {s s' : State} {out : Bytes × Bool} {h : ParsedHead}
    (hind : h.indefinite = true) (hlen : h.length = 1)
    (hin : inp.drop s.pos = initialByte (strMajor t) 31 :: r) :
    readString o inp h (strMajor t) s = .ok out s' ↔
      o.requireDeterministic = false ∧ ∃ (cs : List Chunk) (r' : Bytes), (∀ c ∈ cs, ChunkOk o t c) ∧
        inp.drop s.pos = (Item.chunked t cs).bytes ++ r' ∧ out = (cs.flatMap Chunk.payload, true) ∧
        s' = s.advance (Item.chunked t cs).bytes.length := by
  have hdrop : inp.drop (s.pos + 1) = r := drop_add (a := [initialByte (strMajor t) 31]) hin
  have htotal := length_drop hin
  rw [List.length_cons] at htotal
  cases hdet : o.requireDeterministic with
  | true => simp [readString, hind, hdet]
  | false =>
    simp only [readString, hind, hdet, hlen, not_true_eq_false, if_false, Bool.false_eq_true,
      true_and]
    constructor
    · intro hrun
      cases hchunks : readChunks o inp (strMajor t) (inp.length - (s.pos + 1)) [] (s.advance 1) with
      | error e s₁ => rw [hchunks] at hrun; cases hrun
      | ok scratch s₁ =>
        rw [hchunks] at hrun
        cases hrun
        obtain ⟨cs, r', hcs, hin', rfl, rfl⟩ := readChunks_sound hchunks
        rw [State.advance_pos, hdrop] at hin'
        refine ⟨cs, r', hcs, ?_, by simp, ?_⟩
        · rw [hin, hin', Item.bytes]
          simp
        · rw [State.advance_advance, Item.bytes, List.length_cons, List.length_append]
          congr 1
          simp only [List.length_singleton]
          omega
    · rintro ⟨cs, r', hcs, hin', rfl, rfl⟩
      have hr : r = cs.flatMap (Chunk.bytes (strMajor t)) ++ breakByte :: r' := by
        rw [hin, Item.bytes] at hin'
        simpa using hin'
      rw [readChunks_complete hcs (by rw [State.advance_pos, hdrop, hr])
        (by rw [State.advance_pos])]
      simp only [List.nil_append, State.advance_advance, Item.bytes, List.length_cons,
        List.length_append,
        List.length_nil]
      congr 2
      omega

theorem valid_flatMap_payload {cs : List Chunk} (h : ∀ c ∈ cs, Utf8.Valid c.payload) :
    Utf8.Valid (cs.flatMap Chunk.payload) := by
  induction cs with
  | nil => exact .nil
  | cons c cs ih =>
    rw [List.flatMap_cons]
    exact (h c List.mem_cons_self).append (ih fun d hd => h d (List.mem_cons_of_mem _ hd))

end VCodec.Cbor
