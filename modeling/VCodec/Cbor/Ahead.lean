import VCodec.Cbor.Cursors
import VCodec.Cbor.Item

/-!
# In front of an item

What the operations of the reader return where an accepted item lies ahead: the head of the item,
the value that its head or its payload stands for, and a place behind it.
-/

namespace VCodec.Cbor

variable {D : Options} {inp : Bytes}

/-! ### The head -/

/-- The head of an item, as it is parsed. -/
def frontHead (x : Item) : ParsedHead :=
  match x.front with
  | (m, some h) => h.parsed m
  | (m, none) => { mt := m, ai := 31, indefinite := true, length := 1 }

theorem frontHead_mt (x : Item) : (frontHead x).mt = x.front.1 := by
  unfold frontHead
  split <;> simp_all [Head.parsed]

theorem frontHead_length (x : Item) : (frontHead x).length = (frontBytes x.front).length := by
  unfold frontHead frontBytes
  split <;> simp_all [Head.parsed, Head.bytes_length]

theorem frontBytes_pos (f : Major × Option Head) : 0 < (frontBytes f).length := by
  obtain ⟨m, h | h⟩ := f
  · exact Nat.one_pos
  · exact Nat.succ_pos _

/-- A head without an argument is that of a string or a container of indefinite length. -/
theorem front_none {x : Item} {m : Major} (h : x.front = (m, none)) :
    m = .bytes ∨ m = .text ∨ m = .array ∨ m = .map := by
  match x with
  | .chunked true _ | .chunked false _ =>
    cases h
    simp [strMajor]
  | .container true none _ | .container false none _ =>
    cases h
    simp [containerMajor]
  | .leaf _ _ | .str _ _ _ | .container _ (some _) _ | .tag _ _ => cases h

theorem parseHead_front {x : Item} {p : Nat} {r : Bytes} (hin : inp.drop p = x.bytes ++ r) :
    parseHead inp p = frontHead x := by
  rw [x.bytes_eq, List.append_assoc] at hin
  unfold frontHead
  cases hx : x.front with
  | mk m h =>
  rw [hx] at hin
  cases h with
  | some h => exact parseHead_head hin
  | none =>
    have hm := front_none hx
    rw [parseHead_indefinite (by rcases hm with rfl | rfl | rfl | rfl <;> decide) hin]
    rcases hm with rfl | rfl | rfl | rfl <;> simp

theorem frontHead_flags (x : Item) :
    (frontHead x).isBreak = false ∧ (frontHead x).reserved = false := by
  unfold frontHead
  split <;> exact ⟨rfl, rfl⟩

theorem drop_pos {p : Nat} {x : Item} {r : Bytes} (hin : inp.drop p = x.bytes ++ r) :
    p < inp.length := by
  have hlen := length_drop hin
  rw [List.length_append] at hlen
  have hpos := x.bytes_pos
  omega

/-- The head of an accepted item passes the check. -/
theorem Accepts.front {d : Nat} {x : Item} (hx : Accepts D d x) (pos : Nat) :
    whenStrict D (checkHeadDeterministic (frontHead x) pos) = none := by
  rw [whenStrict_eq_none]
  intro hdet
  have hnode := hx.node.2.2 hdet
  cases x with
  | leaf m h => exact checkHead_parsed.2 hnode.1
  | str t h b => exact checkHead_parsed.2 fun _ => hnode
  | chunked t cs => exact hnode.elim
  | container isMap count xs =>
    cases count with
    | none => exact hnode.elim
    | some h => exact checkHead_parsed.2 fun _ => hnode.1
  | tag h y => exact checkHead_parsed.2 fun _ => hnode

theorem Accepts.simple {d : Nat} {x : Item} (hx : Accepts D d x) :
    ¬ ((frontHead x).mt = .simple ∧ (frontHead x).ai = 24 ∧ (frontHead x).value < 32) := by
  rintro ⟨hmt, hai, hvalue⟩
  rw [frontHead_mt] at hmt
  cases x with
  | leaf m h => exact absurd (hx.node.1.2 hmt hai) (not_le.2 hvalue)
  | str t h b | chunked t cs => cases t <;> cases hmt
  | container t c xs => cases t <;> cases hmt
  | tag h y => cases hmt

theorem scanHead_front {d p fuel : Nat} {x : Item} {r : Bytes} (hx : Accepts D d x)
    (htag : x.front.1 ≠ .tag) (hin : inp.drop p = x.bytes ++ r) (expected : Bytes) :
    scanHead D inp expected (fuel + 1) p = .ok (p, frontHead x) := by
  have hlen : (frontHead x).length ≠ 0 := frontHead_length x ▸ (frontBytes_pos _).ne'
  rw [scanHead, if_neg (not_le.2 (drop_pos hin))]
  simp only [parseHead_front hin]
  rw [if_neg hlen, if_neg (Bool.eq_false_iff.1 (frontHead_flags x).1),
    if_neg (Bool.eq_false_iff.1 (frontHead_flags x).2),
    if_neg (frontHead_mt x ▸ htag), if_neg hx.simple]
  simp only [hx.front]

theorem scanHead_tag (hignore : D.ignoreUnknownTags = true) {p fuel : Nat} {h : Head} {x : Item}
    {r : Bytes} (hin : inp.drop p = (Item.tag h x).bytes ++ r) (expected : Bytes) :
    scanHead D inp expected (fuel + 1) p =
      scanHead D inp expected fuel (p + (h.bytes .tag).length) := by
  have hlen : (h.parsed .tag).length = (h.bytes .tag).length := (h.bytes_length _).symm
  have hpos : (h.parsed .tag).length ≠ 0 := by rw [hlen, Head.bytes_length]; omega
  have hfront : parseHead inp p = h.parsed .tag := parseHead_front hin
  rw [scanHead, if_neg (not_le.2 (drop_pos hin))]
  simp only [hfront]
  rw [if_neg hpos, if_neg (show ¬ (h.parsed .tag).isBreak = true from Bool.false_ne_true),
    if_neg (show ¬ (h.parsed .tag).reserved = true from Bool.false_ne_true),
    if_pos (show (h.parsed .tag).mt = .tag from rfl), if_pos hignore, hlen]

/-! ### Places -/

/-- The item lies between the two places, and the reader accepts it. -/
structure Lies (D : Options) (inp : Bytes) (x : Item) (s u : State) : Prop where
  accepts : Accepts D s.depth x
  low : s.depth ≤ D.maxDepth
  ahead : ∃ r, inp.drop s.pos = x.bytes ++ r
  behind : Same (s.advance x.bytes.length) u

namespace Lies

variable {x : Item} {s t u : State}

theorem same (hs : Same s t) (hl : Lies D inp x t u) : Lies D inp x s u := by
  obtain ⟨hpos, hdepth⟩ := hs
  refine ⟨hdepth ▸ hl.accepts, hdepth ▸ hl.low, hpos ▸ hl.ahead, ?_⟩
  exact ⟨hl.behind.1.trans (congrArg (· + x.bytes.length) hpos), hl.behind.2.trans hdepth⟩

/-- Behind the tag lies the tagged item. -/
theorem tagged {h : Head} (hl : Lies D inp (.tag h x) s u) :
    Lies D inp x (s.advance (h.bytes .tag).length) u := by
  obtain ⟨r, hin⟩ := hl.ahead
  rw [Item.bytes, List.append_assoc] at hin
  refine ⟨(sat_tag.1 hl.accepts).2, hl.low, ⟨r, drop_add hin⟩, ?_⟩
  rw [State.advance_advance, ← List.length_append]
  exact hl.behind

theorem itemHead (hl : Lies D inp x s u) (htag : x.front.1 ≠ .tag) (expected : Bytes) :
    itemHead D inp expected s = .ok (frontHead x) { s with start := s.pos } := by
  obtain ⟨r, hin⟩ := hl.ahead
  have hpos := drop_pos hin
  obtain ⟨fuel, hfuel⟩ : ∃ n, inp.length - s.pos = n + 1 := ⟨inp.length - s.pos - 1, by omega⟩
  unfold Cbor.itemHead
  rw [hfuel, scanHead_front hl.accepts htag hin]

/-- An item is accepted where it lies. -/
theorem skipValue (hl : Lies D inp x s u) : ∃ t, skipValue D inp s = .ok () t ∧ Same t u := by
  obtain ⟨r, hin⟩ := hl.ahead
  exact ⟨_, skipValue_ok_iff.2 ⟨x, r, hl.accepts, hin, rfl⟩, hl.behind⟩

/-- A place in front of an item is found again. -/
theorem restore (ha : Addressable D inp) (hl : Lies D inp x s u) (t : State) :
    Same (t.restore s.save) s := by
  obtain ⟨r, hin⟩ := hl.ahead
  have hpos := drop_pos hin
  have hsize := ha.length
  have hroom := ha.depth
  have hlow := hl.low
  rw [restore_save (by omega) (by omega)]
  exact ⟨rfl, rfl⟩

end Lies

/-! ### Tags -/

/-- The item without the tags before it. -/
def Item.bare : Item → Item
  | .tag _ x => x.bare
  | x => x

theorem Accepts.bare {d : Nat} {x : Item} (hx : Accepts D d x) :
    Accepts D d x.bare ∧ x.bare.front.1 ≠ .tag := by
  induction x using Item.bare.induct with
  | case1 h x ih => exact ih (sat_tag.1 hx).2
  | case2 x hplain =>
    have hbare : x.bare = x := by
      cases x <;> first | rfl | exact absurd rfl (hplain _ _)
    rw [hbare]
    refine ⟨hx, ?_⟩
    cases x with
    | leaf m h =>
      rintro rfl
      rcases hx.node.1.1 with h | h | h <;> cases h
    | str t h b | chunked t cs => cases t <;> exact nofun
    | container t c xs => cases t <;> exact nofun
    | tag h x => exact absurd rfl (hplain _ _)

namespace Lies

variable {x : Item} {s t u : State}

/-- Behind ignored tags lies the item that they tag. -/
theorem bare (hignore : D.ignoreUnknownTags = true) (hl : Lies D inp x s u) (expected : Bytes) :
    ∃ t, Cbor.itemHead D inp expected s = .ok (frontHead x.bare) { t with start := t.pos } ∧
      Lies D inp x.bare t u := by
  have hscan : ∀ (x : Item) (s : State), Lies D inp x s u → ∀ fuel, inp.length - s.pos ≤ fuel →
      ∃ t, scanHead D inp expected fuel s.pos = .ok (t.pos, frontHead x.bare) ∧
        t = { s with pos := t.pos } ∧
        Lies D inp x.bare t u := by
    intro x
    induction x using Item.bare.induct with
    | case1 h x ih =>
      intro s hl fuel hfuel
      obtain ⟨r, hin⟩ := hl.ahead
      have hpos := drop_pos hin
      obtain ⟨fuel, rfl⟩ : ∃ n, fuel = n + 1 := ⟨fuel - 1, by omega⟩
      have hhead : 0 < (h.bytes .tag).length := by rw [Head.bytes_length]; omega
      obtain ⟨t, ht, hplace, hlies⟩ := ih _ hl.tagged fuel (by rw [State.advance_pos]; omega)
      exact ⟨t, by rw [scanHead_tag hignore hin]; exact ht, hplace, hlies⟩
    | case2 x hplain =>
      intro s hl fuel hfuel
      obtain ⟨r, hin⟩ := hl.ahead
      have hpos := drop_pos hin
      obtain ⟨fuel, rfl⟩ : ∃ n, fuel = n + 1 := ⟨fuel - 1, by omega⟩
      have hbare : x.bare = x := by
        cases x <;> first | rfl | exact absurd rfl (hplain _ _)
      have hfront := hl.accepts.bare.2
      rw [hbare] at hfront ⊢
      exact ⟨s, scanHead_front hl.accepts hfront hin expected, rfl, hl⟩
  obtain ⟨t, ht, hplace, hlies⟩ := hscan x s hl _ le_rfl
  refine ⟨t, ?_, hlies⟩
  unfold Cbor.itemHead
  rw [ht, hplace]

/-- The reader comes to the item itself: it has no tags, or they are ignored. -/
theorem reach (hreach : D.ignoreUnknownTags = true ∨ x.bare = x) (hl : Lies D inp x s u)
    (expected : Bytes) :
    ∃ t, Cbor.itemHead D inp expected s = .ok (frontHead x.bare) { t with start := t.pos } ∧
      Lies D inp x.bare t u := by
  rcases hreach with hignore | hplain
  · exact hl.bare hignore expected
  · have htag := hl.accepts.bare.2
    rw [hplain] at htag ⊢
    exact ⟨s, hl.itemHead htag expected, hl⟩

/-- What starts with a head does at the item what it does at the item's tags. -/
theorem reach_bind {α : Type} (hreach : D.ignoreUnknownTags = true ∨ x.bare = x)
    (hl : Lies D inp x s u) (expected : Bytes) (k : ParsedHead → M α) :
    ∃ t, (Cbor.itemHead D inp expected >>= k) s = (Cbor.itemHead D inp expected >>= k) t ∧
      Lies D inp x.bare t u := by
  obtain ⟨t, hhead, hbare⟩ := hl.reach hreach expected
  refine ⟨t, ?_, hbare⟩
  rw [Run.bind_of_ok hhead, Run.bind_of_ok (hbare.itemHead hl.accepts.bare.2 _)]

end Lies

/-- What an item behind its tags is, as its head tells. -/
def kindOf (D : Options) (h : ParsedHead) : Kind :=
  match h.mt with
  | .tag => .tag
  | .uint => .uint
  | .nint => .sint
  | .bytes => .bytes
  | .text => .text
  | .array => .array
  | .map => .map
  | .simple =>
    if h.ai = 20 ∨ h.ai = 21 then .boolean
    else if h.ai = 22 then .null
    else if h.ai = 23 then (if D.undefinedAsNull then .null else .undefined)
    else if 25 ≤ h.ai ∧ h.ai ≤ 27 then .real
    else .undefined

theorem peekFrom_front {p fuel : Nat} {x : Item} {r : Bytes} (htag : x.front.1 ≠ .tag)
    (hin : inp.drop p = x.bytes ++ r) : peekFrom D inp (fuel + 1) p = kindOf D (frontHead x) := by
  have hmt : (frontHead x).mt ≠ .tag := frontHead_mt x ▸ htag
  have hopen : ¬ ((frontHead x).length = 0 ∨ (frontHead x).reserved = true ∨
    (frontHead x).isBreak = true) := by
    rw [(frontHead_flags x).1, (frontHead_flags x).2, frontHead_length]
    have hpos := frontBytes_pos x.front
    simp only [Bool.false_eq_true, or_false]
    omega
  rw [peekFrom]
  simp only [parseHead_front hin, if_neg hopen]
  unfold kindOf
  cases hm : (frontHead x).mt with
  | tag => exact absurd hm hmt
  | _ => rfl

theorem peekFrom_tag (hignore : D.ignoreUnknownTags = true) {p fuel : Nat} {h : Head} {x : Item}
    {r : Bytes} (hin : inp.drop p = (Item.tag h x).bytes ++ r) :
    peekFrom D inp (fuel + 1) p = peekFrom D inp fuel (p + (h.bytes .tag).length) := by
  have hlen : (h.parsed .tag).length = (h.bytes .tag).length := (h.bytes_length _).symm
  have hfront : parseHead inp p = h.parsed .tag := parseHead_front hin
  have hopen : ¬ ((h.parsed .tag).length = 0 ∨ (h.parsed .tag).reserved = true ∨
    (h.parsed .tag).isBreak = true) := by
    simp [Head.parsed]
  rw [peekFrom]
  simp only [hfront, if_neg hopen]
  show (if D.ignoreUnknownTags = true then _ else _) = _
  rw [if_pos hignore, hlen]

namespace Lies

variable {x : Item} {s t u : State}

theorem peek (hreach : D.ignoreUnknownTags = true ∨ x.bare = x) (hl : Lies D inp x s u) :
    Cbor.peek D inp s = kindOf D (frontHead x.bare) := by
  rcases hreach with hignore | hplain
  swap
  · obtain ⟨r, hin⟩ := hl.ahead
    have hpos := drop_pos hin
    obtain ⟨fuel, hfuel⟩ : ∃ n, inp.length - s.pos = n + 1 := ⟨inp.length - s.pos - 1, by omega⟩
    have htag := hl.accepts.bare.2
    rw [hplain] at htag ⊢
    rw [Cbor.peek, hfuel, peekFrom_front htag hin]
  have hfrom : ∀ (x : Item) (s : State), Lies D inp x s u → ∀ fuel, inp.length - s.pos ≤ fuel →
      peekFrom D inp fuel s.pos = kindOf D (frontHead x.bare) := by
    intro x
    induction x using Item.bare.induct with
    | case1 h x ih =>
      intro s hl fuel hfuel
      obtain ⟨r, hin⟩ := hl.ahead
      have hpos := drop_pos hin
      obtain ⟨fuel, rfl⟩ : ∃ n, fuel = n + 1 := ⟨fuel - 1, by omega⟩
      have hhead : 0 < (h.bytes .tag).length := by rw [Head.bytes_length]; omega
      rw [peekFrom_tag hignore hin]
      exact ih _ hl.tagged fuel (by rw [State.advance_pos]; omega)
    | case2 x hplain =>
      intro s hl fuel hfuel
      obtain ⟨r, hin⟩ := hl.ahead
      have hpos := drop_pos hin
      obtain ⟨fuel, rfl⟩ : ∃ n, fuel = n + 1 := ⟨fuel - 1, by omega⟩
      have hbare : x.bare = x := by
        cases x <;> first | rfl | exact absurd rfl (hplain _ _)
      have hfront := hl.accepts.bare.2
      rw [hbare] at hfront ⊢
      exact peekFrom_front hfront hin
  exact hfrom x s hl _ le_rfl

/-! ### Scalars -/

variable {m : Major} {h : Head}

/-- A leaf is read by its head. -/
theorem leaf (hl : Lies D inp (.leaf m h) s u) (expected : Bytes) :
    Cbor.itemHead D inp expected s = .ok (h.parsed m) { s with start := s.pos } ∧
      Same ({ s with start := s.pos }.advance (h.parsed m).length) u := by
  refine ⟨hl.itemHead hl.accepts.bare.2 expected, ?_⟩
  have hlen : (h.parsed m).length = (Item.leaf m h).bytes.length := (h.bytes_length m).symm
  rw [hlen]
  exact hl.behind

theorem expectUint (hl : Lies D inp (.leaf .uint h) s u) :
    ∃ t, Cbor.expectUint D inp s = .ok h.value t ∧ Same t u := by
  obtain ⟨hhead, hsame⟩ := hl.leaf (str "unsigned integer")
  refine ⟨_, ?_, hsame⟩
  unfold Cbor.expectUint
  rw [Run.bind_of_ok hhead, if_pos (show (h.parsed .uint).mt = .uint from rfl)]
  rfl

theorem expectSint_uint (hl : Lies D inp (.leaf .uint h) s u) (hle : h.value ≤ int64Max) :
    ∃ t, Cbor.expectSint D inp s = .ok (h.value : Int) t ∧ Same t u := by
  obtain ⟨hhead, hsame⟩ := hl.leaf (str "integer")
  refine ⟨_, ?_, hsame⟩
  unfold Cbor.expectSint
  rw [Run.bind_of_ok hhead, if_pos (show (h.parsed .uint).mt = .uint from rfl),
    if_neg (show ¬ int64Max < (h.parsed .uint).value from not_lt.2 hle)]
  rfl

theorem expectSint_nint (hl : Lies D inp (.leaf .nint h) s u) (hle : h.value ≤ int64Max) :
    ∃ t, Cbor.expectSint D inp s = .ok (-1 - (h.value : Int)) t ∧ Same t u := by
  obtain ⟨hhead, hsame⟩ := hl.leaf (str "integer")
  refine ⟨_, ?_, hsame⟩
  unfold Cbor.expectSint
  rw [Run.bind_of_ok hhead, if_neg (show ¬ (h.parsed .nint).mt = .uint from nofun),
    if_pos (show (h.parsed .nint).mt = .nint from rfl),
      if_neg (show ¬ int64Max < (h.parsed .nint).value from not_lt.2 hle)]
  rfl

theorem expectBoolean (hl : Lies D inp (.leaf .simple h) s u) (hai : h.ai = 20 ∨ h.ai = 21) :
    ∃ t, Cbor.expectBoolean D inp s = .ok (decide (h.ai = 21)) t ∧ Same t u := by
  obtain ⟨hhead, hsame⟩ := hl.leaf (str "boolean")
  refine ⟨_, ?_, hsame⟩
  unfold Cbor.expectBoolean
  rw [Run.bind_of_ok hhead, if_pos ⟨rfl, hai⟩]
  rfl

theorem expectNull (hignore : D.ignoreUnknownTags = true) (hl : Lies D inp x s u)
    (hbare : x.bare = .leaf .simple h) (hai : h.ai = 22) :
    ∃ t, Cbor.expectNull D inp s = .ok () t ∧ Same t u := by
  obtain ⟨w, hhead, hw⟩ := hl.bare hignore (str "null")
  rw [hbare] at hhead hw
  refine ⟨_, ?_, (hw.leaf []).2⟩
  unfold Cbor.expectNull
  rw [Run.bind_of_ok hhead, if_pos ⟨rfl, .inl hai⟩]
  rfl

theorem expectReal (hl : Lies D inp (.leaf .simple h) s u) (hai : 25 ≤ h.ai ∧ h.ai ≤ 27) :
    ∃ t, Cbor.expectReal D inp s = .ok (floatOf h.ai h.value) t ∧ Same t u := by
  obtain ⟨hhead, hsame⟩ := hl.leaf (str "float")
  have hcheck : ∀ pos, whenStrict D (checkPreferredFloat (floatOf h.ai h.value) h.ai h.value pos) =
    none := by
    intro pos
    rw [whenStrict_eq_none, checkPreferredFloat_eq_none]
    exact fun hdet => (hl.accepts.node.2.2 hdet).2 rfl hai.1
  refine ⟨_, ?_, hsame⟩
  exact expectReal_of_none hhead rfl hai (hcheck _)

/-! ### Strings -/

variable {isText : Bool} {b : Bytes} {cs : List Chunk}

/-- A string is read whole, and borrowed from the input. -/
theorem readString (hl : Lies D inp (.str isText h b) s u) :
    ∃ t, Cbor.readString D inp (h.parsed (strMajor isText))
    (strMajor isText) { s with start := s.pos } = .ok (b, false) t ∧
      t.start = s.pos ∧ Same t u := by
  obtain ⟨r, hin⟩ := hl.ahead
  have hvalue : b.length = h.value := hl.accepts.node.1
  rw [Item.bytes, List.append_assoc] at hin
  have hbytes : (Item.str isText h b).bytes.length =
    (h.bytes (strMajor isText)).length + h.value := by
    rw [Item.bytes, List.length_append, hvalue]
  refine ⟨_, (readString_definite (o := D) (s := { s with start := s.pos }) hin).2 ⟨?_, ?_, rfl⟩,
    rfl, ?_⟩
  · rw [List.length_append]
    omega
  · rw [← hvalue, List.take_left]
  · rw [← hbytes]
    exact hl.behind

/-- A string in chunks is put together. -/
theorem readString_chunks (hl : Lies D inp (.chunked isText cs) s u) {p : ParsedHead}
    (hp : p = frontHead (.chunked isText cs)) :
    ∃ t, Cbor.readString D inp p (strMajor isText) { s with start := s.pos } =
      .ok (cs.flatMap Chunk.payload, true) t ∧
      t.start = s.pos ∧ Same t u := by
  subst hp
  obtain ⟨r, hin⟩ := hl.ahead
  have hnode := hl.accepts.node
  have hlax : D.requireDeterministic = false := by
    cases hdet : D.requireDeterministic with
    | false => rfl
    | true => exact (hnode.2.2 hdet).elim
  have hfront := hin
  rw [Item.bytes, List.cons_append] at hfront
  refine ⟨_,
    (readString_indefinite (o := D) (s := { s with start := s.pos })
    (h := frontHead (.chunked isText cs)) rfl rfl
    hfront).2 ⟨hlax, cs, r, chunkOk_iff.2 ⟨hnode.1, hnode.2.1⟩, hin, rfl, rfl⟩, rfl, hl.behind⟩

theorem expectText_of (hhead : Cbor.itemHead D inp (str "text string") s =
      .ok (frontHead x) { s with start := s.pos }) (hmt : (frontHead x).mt = .text) {chunked : Bool}
    (hread : Cbor.readString D inp (frontHead x) .text { s with start := s.pos } =
      .ok (b, chunked) t)
    (hvalid : D.validateUtf8 = true → Utf8.Valid b) :
    Cbor.expectText D inp s = .ok { text := b, borrowed := !chunked, rawLength := t.pos - t.start }
      t := by
  have hnone : (if D.validateUtf8 then validateUtf8 b else none) = none := by
    split
    · rename_i hutf
      exact validateUtf8_eq_none.2 (hvalid hutf)
    · rfl
  unfold Cbor.expectText
  rw [Run.bind_of_ok hhead, if_neg (not_not.2 hmt), Run.bind_of_ok hread]
  simp only [hnone]
  rfl

theorem expectText (hl : Lies D inp (.str true h b) s u) :
    ∃ ref t, Cbor.expectText D inp s = .ok ref t ∧ Same t u ∧ ref.text = b ∧
      ref.borrowed = true := by
  obtain ⟨t, hread, -, hsame⟩ := hl.readString
  exact ⟨_, t, expectText_of (hl.itemHead nofun _) rfl hread hl.accepts.node.2.1, hsame, rfl, rfl⟩

theorem expectText_chunks (hl : Lies D inp (.chunked true cs) s u) :
    ∃ ref t, Cbor.expectText D inp s = .ok ref t ∧ Same t u ∧ ref.text = cs.flatMap Chunk.payload ∧
      ref.borrowed = false := by
  obtain ⟨t, hread, -, hsame⟩ := hl.readString_chunks rfl
  have hvalid := fun hutf => valid_flatMap_payload (hl.accepts.node.2.1 hutf)
  exact ⟨_, t, expectText_of (hl.itemHead nofun _) rfl hread hvalid, hsame, rfl, rfl⟩

theorem expectText_ne (hl : Lies D inp x s u) (htag : x.front.1 ≠ .tag) (hm : x.front.1 ≠ .text)
    (ref : TextRef) (t : State) :
    Cbor.expectText D inp s ≠ .ok ref t := by
  unfold Cbor.expectText
  rw [Run.bind_of_ok (hl.itemHead htag _), if_pos (frontHead_mt x ▸ hm)]
  exact nofun

theorem expectBytes_of
    (hhead : Cbor.itemHead D inp (str "byte string") s =
    .ok (frontHead x) { s with start := s.pos })
    (hmt : (frontHead x).mt = .bytes) {chunked : Bool}
    (hread : Cbor.readString D inp (frontHead x) .bytes { s with start := s.pos } =
      .ok (b, chunked) t) :
    Cbor.expectBytes D inp s = .ok { bytes := b, borrowed := !chunked } t := by
  unfold Cbor.expectBytes
  rw [Run.bind_of_ok hhead, if_neg (not_not.2 hmt), Run.bind_of_ok hread]
  rfl

theorem expectBytes (hl : Lies D inp (.str false h b) s u) :
    ∃ t, Cbor.expectBytes D inp s = .ok { bytes := b, borrowed := true } t ∧ Same t u := by
  obtain ⟨t, hread, -, hsame⟩ := hl.readString
  exact ⟨t, expectBytes_of (hl.itemHead nofun _) rfl hread, hsame⟩

theorem expectBytes_chunks (hl : Lies D inp (.chunked false cs) s u) :
    ∃ t, Cbor.expectBytes D inp s = .ok { bytes := cs.flatMap Chunk.payload, borrowed := false } t ∧
      Same t u := by
  obtain ⟨t, hread, -, hsame⟩ := hl.readString_chunks rfl
  exact ⟨t, expectBytes_of (hl.itemHead nofun _) rfl hread, hsame⟩

/-! ### Expected tags and bulk forms -/

theorem rawHead (hl : Lies D inp x s u) : Cbor.rawHead inp s = .ok (frontHead x) s := by
  obtain ⟨r, hin⟩ := hl.ahead
  have hpos := drop_pos hin
  have hlen : (frontHead x).length ≠ 0 := frontHead_length x ▸ (frontBytes_pos _).ne'
  unfold Cbor.rawHead
  simp only [parseHead_front hin]
  rw [if_neg (by omega), if_neg hlen, if_neg (Bool.eq_false_iff.1 (frontHead_flags x).2),
    if_neg (Bool.eq_false_iff.1 (frontHead_flags x).1)]

theorem expectTags_cons (hl : Lies D inp (.tag h x) s u) (ts : List Nat) :
    Cbor.expectTags inp (h.value :: ts) s =
      Cbor.expectTags inp ts (s.advance (h.bytes .tag).length) := by
  have hhead : Cbor.rawHead inp s = .ok (h.parsed .tag) s := hl.rawHead
  have hmatch : ¬ ((h.parsed .tag).mt ≠ .tag ∨ (h.parsed .tag).value ≠ h.value) := by
    simp [Head.parsed]
  rw [Cbor.expectTags, Run.bind_of_ok hhead, if_neg hmatch, Head.bytes_length]
  rfl

theorem expectTags_ne (hl : Lies D inp x s u) (htag : x.front.1 ≠ .tag) (t : Nat) (ts : List Nat)
    (w : State) :
    Cbor.expectTags inp (t :: ts) s ≠ .ok () w := by
  rw [Cbor.expectTags, Run.bind_of_ok hl.rawHead, if_pos (.inl (frontHead_mt x ▸ htag))]
  intro h
  cases h

/-- The tag and the bytes of a typed array. -/
theorem rangeBytes {h' : Head} (hl : Lies D inp (.tag h (.str false h' b)) s u)
    (hlo : 64 ≤ h.value) (hhi : h.value ≤ 87) (hreserved : h.value ≠ 76) :
    ∃ w, Cbor.rangeBytes D inp s = .ok (some (h.value, b, s.pos)) w ∧ Same w u := by
  have hhead : Cbor.rawHead inp s = .ok (h.parsed .tag) s := hl.rawHead
  obtain ⟨w, hbytes, hsame⟩ := hl.tagged.expectBytes
  have hno : ¬ ((h.parsed .tag).mt ≠ .tag ∨ (h.parsed .tag).value < 64 ∨
    87 < (h.parsed .tag).value ∨
      (h.parsed .tag).value = 76) := by
    simp only [Head.parsed, ne_eq, not_true_eq_false, false_or]
    omega
  have hbehind : Cbor.behind (h.parsed .tag) (Cbor.expectBytes D inp) s =
    .ok { bytes := b, borrowed := true } w := by
    unfold Cbor.behind
    rw [show (h.parsed .tag).length = (h.bytes .tag).length from (h.bytes_length _).symm, hbytes]
  refine ⟨w, ?_, hsame⟩
  unfold Cbor.rangeBytes
  rw [Run.bind_of_ok hhead, if_neg hno]
  show (do
    let b ← Cbor.behind (h.parsed .tag) (Cbor.expectBytes D inp)
    return some (h.value, b.bytes, s.pos) : M _) s = _
  rw [Run.bind_of_ok hbehind]
  rfl

theorem rangeBytes_none (hl : Lies D inp x s u) (htag : x.front.1 ≠ .tag) :
    Cbor.rangeBytes D inp s = .ok none s := by
  unfold Cbor.rangeBytes
  rw [Run.bind_of_ok hl.rawHead, if_pos (.inl (frontHead_mt x ▸ htag))]
  rfl

end Lies

/-! ### Containers -/

theorem head_ne_break {x : Item} {p : Nat} {r : Bytes} (hin : inp.drop p = x.bytes ++ r) :
    (inp.drop p).head? ≠ some breakByte := by
  intro hbreak
  obtain ⟨r', hr'⟩ := List.head?_eq_some_iff.1 hbreak
  have hflag := (frontHead_flags x).1
  rw [← parseHead_front hin, parseHead_break hr'] at hflag
  cases hflag

/-- What stands behind the last item of a container. -/
def closing (remaining : Option Nat) : Bytes := if remaining.isNone then [breakByte] else []

/-- The items that a container has still to give up lie between the two places, and what closes
it. -/
structure Rest (D : Options) (inp : Bytes) (remaining : Option Nat) (n : Nat) (xs : List Item)
    (s u : State) : Prop where
  accepts : ∀ x ∈ xs, Accepts D s.depth x
  low : s.depth ≤ D.maxDepth
  ahead : ∃ r, inp.drop s.pos = Item.bytesList xs ++ (closing remaining ++ r)
  counts : ∀ c ∈ remaining, c = n
  behind : u.pos = s.pos + (Item.bytesList xs).length + (closing remaining).length ∧
    s.depth = u.depth + 1

namespace Lies

variable {s u : State}

/-- Behind the head of a container lie its items. -/
theorem expectContainer {isMap : Bool} {count : Option Head} {n : Nat} {xs : List Item}
    (hl : Lies D inp (.container isMap count xs) s u)
    (hcount : ∀ h ∈ count, h.value = n) (expected : Bytes) :
    ∃ t, Cbor.expectContainer D inp isMap expected s = .ok (count.map Head.value) t ∧
      Rest D inp (count.map Head.value) n xs t u := by
  obtain ⟨r, hin⟩ := hl.ahead
  obtain ⟨-, hroom, hxs⟩ := sat_container.1 hl.accepts
  have htag : (Item.container isMap count xs).front.1 ≠ .tag := by cases isMap <;> exact nofun
  have hmt : ¬ (frontHead (.container isMap count xs)).mt ≠ containerMajor isMap :=
    not_not.2 (frontHead_mt _)
  have hbody : (Item.container isMap count xs).body =
    Item.bytesList xs ++ closing (count.map Head.value) := by
    cases count with
    | none => exact rfl
    | some h => exact (List.append_nil _).symm
  have hremaining : (if (frontHead (.container isMap count xs)).indefinite then none
      else some (frontHead (.container isMap count xs)).value) = count.map Head.value := by
    cases count <;> exact rfl
  have hdrop := hin
  rw [Item.bytes_eq, List.append_assoc, hbody, List.append_assoc] at hdrop
  have hlen : (Item.container isMap count xs).bytes.length =
    (frontBytes (containerMajor isMap, count)).length +
      ((Item.bytesList xs).length + (closing (count.map Head.value)).length) := by
    rw [Item.bytes_eq, hbody, List.length_append, List.length_append]
    exact rfl
  refine ⟨{ s with pos := s.pos + (frontBytes (containerMajor isMap, count)).length, depth := s.depth + 1, start := s.pos },
    ?_, hxs, hroom, ⟨r, drop_add hdrop⟩, fun c hc => ?_, ?_⟩
  · unfold Cbor.expectContainer
    rw [Run.bind_of_ok (hl.itemHead htag expected), if_neg hmt]
    unfold enter
    rw [if_neg (not_le.2 hroom), hremaining, frontHead_length]
    exact rfl
  · obtain ⟨h, hh, rfl⟩ := Option.map_eq_some_iff.1 hc
    exact hcount h hh
  · obtain ⟨hpos, hdepth⟩ := hl.behind
    rw [State.advance_pos, hlen] at hpos
    exact ⟨by simp only; omega, congrArg (· + 1) hdepth.symm⟩

end Lies

namespace Rest

variable {remaining remaining' : Option Nat} {n n' : Nat} {x : Item} {xs : List Item}
    {s t u : State}

theorem same (hs : Same s t) (hr : Rest D inp remaining n xs t u) :
    Rest D inp remaining n xs s u := by
  obtain ⟨hpos, hdepth⟩ := hs
  refine ⟨hdepth ▸ hr.accepts, hdepth ▸ hr.low, hpos ▸ hr.ahead, hr.counts, ?_⟩
  rw [← hpos, ← hdepth]
  exact hr.behind

/-- The first item lies ahead, and the others behind it. -/
theorem cons (hr : Rest D inp remaining n (x :: xs) s u)
    (hsome : remaining'.isNone = remaining.isNone) (hcounts : ∀ c ∈ remaining', c = n') :
    Lies D inp x s (s.advance x.bytes.length) ∧
      Rest D inp remaining' n' xs (s.advance x.bytes.length) u := by
  obtain ⟨r, hin⟩ := hr.ahead
  obtain ⟨hx, hxs⟩ := List.forall_mem_cons.1 hr.accepts
  have hclosing : closing remaining' = closing remaining := by rw [closing, closing, hsome]
  rw [Item.bytesList, List.append_assoc] at hin
  refine ⟨⟨hx, hr.low, ⟨_, hin⟩, rfl, rfl⟩, hxs, hr.low, ⟨r, ?_⟩, hcounts, ?_⟩
  · rw [hclosing]
    exact drop_add hin
  · obtain ⟨hpos, hdepth⟩ := hr.behind
    rw [Item.bytesList, List.length_append] at hpos
    rw [hclosing, State.advance_pos]
    exact ⟨by omega, hdepth⟩

/-- Nothing is left but to leave the container. -/
theorem nil (hr : Rest D inp remaining n [] s u) :
    u.pos = s.pos + (closing remaining).length ∧ s.depth = u.depth + 1 ∧
      ∃ r, inp.drop s.pos = closing remaining ++ r :=
  ⟨hr.behind.1, hr.behind.2, hr.ahead⟩

theorem pos_lt (hr : Rest D inp remaining n (x :: xs) s u) :
    s.pos < inp.length ∧ (inp.drop s.pos).head? ≠ some breakByte := by
  obtain ⟨r, hin⟩ := hr.ahead
  rw [Item.bytesList, List.append_assoc] at hin
  exact ⟨drop_pos hin, head_ne_break hin⟩

end Rest

theorem SeqCursor.next_at {c : SeqCursor} {x : Item} {xs : List Item} {s u : State}
    (hr : Rest D inp c.remaining (xs.length + 1) (x :: xs) s u) :
    ∃ c', SeqCursor.next inp c s = .ok (true, c') s ∧ Lies D inp x s (s.advance x.bytes.length) ∧
      Rest D inp c'.remaining xs.length xs (s.advance x.bytes.length) u := by
  obtain ⟨hpos, hbreak⟩ := hr.pos_lt
  unfold SeqCursor.next
  cases hc : c.remaining with
  | none =>
    simp only [if_neg (not_le.2 hpos), if_neg hbreak]
    exact ⟨c, rfl, hr.cons rfl (by rw [hc]; exact nofun)⟩
  | some k =>
    obtain rfl := hr.counts k hc
    simp only [if_neg (not_le.2 hpos)]
    exact ⟨⟨some xs.length⟩, rfl, hr.cons (by rw [hc]; rfl) fun k hk =>
      (Option.mem_some_iff.1 hk).symm⟩

theorem SeqCursor.next_end {c : SeqCursor} {s u : State} (hr : Rest D inp c.remaining 0 [] s u) :
    ∃ c' t, SeqCursor.next inp c s = .ok (false, c') t ∧ Same t u := by
  obtain ⟨hpos, hdepth, r, hin⟩ := hr.nil
  unfold SeqCursor.next
  cases hc : c.remaining with
  | none =>
    rw [hc] at hin hpos
    have hlen := length_drop hin
    have hbreak : (inp.drop s.pos).head? = some breakByte := by rw [hin]; rfl
    rw [List.length_append, show (closing none).length = 1 from rfl] at hlen
    simp only [if_neg (show ¬ inp.length ≤ s.pos by omega), if_pos hbreak]
    exact ⟨c, _, rfl, hpos, by simp only [hdepth, Nat.add_sub_cancel]⟩
  | some k =>
    obtain rfl := hr.counts k hc
    rw [hc] at hpos
    exact ⟨c, _, rfl, hpos, by simp only [hdepth, Nat.add_sub_cancel]⟩

/-- The key ahead follows the one before it; the cursor stays in front of it. -/
theorem MapCursor.keyAhead_at
    (ha : Addressable D inp) {c : MapCursor} {k : Item} {s t : State} (hl : Lies D inp k s t)
    (hprev : D.requireDeterministic = true → ∀ p ∈ c.prevKey inp, p < k.bytes) :
    ∃ c' w, MapCursor.keyAhead D inp c s = .ok (true, c') w ∧ c'.remaining = c.remaining ∧
      Same w s ∧
      (D.requireDeterministic = true → c'.prevKey inp = some k.bytes) := by
  unfold MapCursor.keyAhead
  cases hdet : D.requireDeterministic with
  | false => exact ⟨c, s, rfl, rfl, ⟨rfl, rfl⟩, nofun⟩
  | true =>
    obtain ⟨r, hin⟩ := hl.ahead
    have hskip : Cbor.skipValue D inp s = .ok () (s.advance k.bytes.length) :=
      skipValue_ok_iff.2 ⟨k, r, hl.accepts, hin, rfl⟩
    have hcur : subspan inp s.pos (s.advance k.bytes.length).pos = k.bytes := subspan_eq hin
    rw [if_pos rfl, hskip]
    simp only [hcur, c.order_eq_none.2 (hprev hdet)]
    refine ⟨_, _, rfl, rfl, hl.restore ha _, fun _ => ?_⟩
    rw [MapCursor.prevKey, if_pos rfl]
    exact congrArg some hcur

/-- What lies inside a map: its entries, whose keys ascend if the reader asks for it. -/
structure Entries (D : Options) (inp : Bytes) (c : MapCursor) (es : List (Item × Item))
    (s u : State) : Prop where
  rest : Rest D inp c.remaining es.length (alternate es) s u
  ascend : D.requireDeterministic = true → KeysAscend true (c.prevKey inp) (alternate es)

theorem MapCursor.next_at
    (ha : Addressable D inp) {c : MapCursor} {k x : Item} {es : List (Item × Item)}
    {s u : State} (he : Entries D inp c ((k, x) :: es) s u) :
    ∃ c' t t' t'', MapCursor.next D inp c s = .ok (true, c') t ∧ Lies D inp k t t' ∧
      Lies D inp x t' t'' ∧
      Entries D inp c' es t'' u := by
  have hrest := he.rest
  rw [alternate_cons] at hrest
  obtain ⟨hpos, hbreak⟩ := hrest.pos_lt
  have hentry : ∀ c₁ : MapCursor, c₁.remaining.isNone = c.remaining.isNone →
    (∀ n ∈ c₁.remaining, n = es.length) →
      c₁.prevKey inp = c.prevKey inp → ∃ c' t t' t'',
        MapCursor.keyAhead D inp c₁ s = .ok (true, c') t ∧
        Lies D inp k t t' ∧ Lies D inp x t' t'' ∧ Entries D inp c' es t'' u := by
    intro c₁ hnone hcounts hprev
    obtain ⟨hk, hbehind⟩ := hrest.cons hnone hcounts
    obtain ⟨hx, hes⟩ := hbehind.cons rfl hcounts
    have hascend : D.requireDeterministic = true → (∀ p ∈ c₁.prevKey inp, p < k.bytes) ∧
        KeysAscend true (some k.bytes) (alternate es) := fun hdet => hprev ▸ he.ascend hdet
    obtain ⟨c', w, hrun, hremaining, hsame, hkey⟩ := keyAhead_at ha hk fun hdet => (hascend hdet).1
    refine ⟨c', w, _, _, hrun, hk.same hsame, hx, hremaining ▸ hes, fun hdet => ?_⟩
    rw [hkey hdet]
    exact (hascend hdet).2
  unfold MapCursor.next
  cases hc : c.remaining with
  | none =>
    simp only [if_neg (not_le.2 hpos), if_neg hbreak]
    exact hentry c rfl (by rw [hc]; exact nofun) rfl
  | some n =>
    obtain rfl := he.rest.counts n hc
    simp only [List.length_cons, if_neg (not_le.2 hpos)]
    exact hentry { c with remaining := some es.length } (by rw [hc]; rfl)
      (fun n hn => (Option.mem_some_iff.1 hn).symm) rfl

theorem MapCursor.next_end {c : MapCursor} {s u : State} (he : Entries D inp c [] s u) :
    ∃ c' t, MapCursor.next D inp c s = .ok (false, c') t ∧ Same t u := by
  obtain ⟨hpos, hdepth, r, hin⟩ := he.rest.nil
  unfold MapCursor.next
  cases hc : c.remaining with
  | none =>
    rw [hc] at hin hpos
    have hlen := length_drop hin
    have hbreak : (inp.drop s.pos).head? = some breakByte := by rw [hin]; rfl
    rw [List.length_append, show (closing none).length = 1 from rfl] at hlen
    simp only [if_neg (show ¬ inp.length ≤ s.pos by omega), if_pos hbreak]
    exact ⟨c, _, rfl, hpos, by simp only [hdepth, Nat.add_sub_cancel]⟩
  | some k =>
    obtain rfl := he.rest.counts k hc
    rw [hc] at hpos
    exact ⟨c, _, rfl, hpos, by simp only [hdepth, Nat.add_sub_cancel]⟩

end VCodec.Cbor
