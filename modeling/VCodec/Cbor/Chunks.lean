import VCodec.Cbor.Expect
import VCodec.Cbor.Emit
import VCodec.Cbor.Item

/-!
# Strings in chunks

The hooks of members with `cbor::indefinite` cut a string every `chunkSize` bytes, wherever a
character ends. The reader takes each chunk of a text for a text of its own, so a text comes back
exactly if no character lies across a cut. Bytes always come back.
-/

namespace VCodec.Cbor

variable {o : Options} {inp s r : Bytes} {u : State}

/-- No character lies across a multiple of the chunk size. -/
def CutsClean (s : Bytes) : Prop := ∀ i, Utf8.Valid ((s.drop (i * chunkSize)).take chunkSize)

theorem cutsClean_iff (s : Bytes) :
    CutsClean s ↔ Utf8.Valid (s.take chunkSize) ∧ CutsClean (s.drop chunkSize) := by
  constructor
  · intro h
    refine ⟨by simpa using h 0, fun i => ?_⟩
    rw [List.drop_drop, Nat.add_comm, ← Nat.succ_mul]
    exact h (i + 1)
  · rintro ⟨hfirst, hrest⟩ i
    cases i with
    | zero => simpa using hfirst
    | succ i =>
      rw [Nat.succ_mul, Nat.add_comm, ← List.drop_drop]
      exact hrest i

theorem cutsClean_nil : CutsClean [] := by
  intro i
  rw [List.drop_nil, List.take_nil]
  exact .nil

theorem valid_chunkList_iff {n : Nat} (hn : s.length ≤ n) :
    (∀ c ∈ chunkList n s, Utf8.Valid c.payload) ↔ CutsClean s := by
  induction n generalizing s with
  | zero =>
    obtain rfl := List.length_eq_zero_iff.1 (Nat.le_zero.1 hn)
    exact iff_of_true (List.forall_mem_nil _) cutsClean_nil
  | succ n ih =>
    rw [chunkList]
    split
    · rename_i hnil
      rw [hnil]
      exact iff_of_true (List.forall_mem_nil _) cutsClean_nil
    · rename_i hne
      have hpos := List.length_pos_iff.2 hne
      have hsize : (s.drop chunkSize).length ≤ n := by
        rw [List.length_drop, chunkSize]
        omega
      rw [List.forall_mem_cons, ih hsize, ← cutsClean_iff]

/-! ### Writing -/

/-- The sink call appends `x` and counts an item. -/
def Writes (m : W Unit) (x : Bytes) : Prop := ∀ w, m w = .ok ⟨⟩ ((w.modifyTop Frame.item).append x)

theorem laxNode_chunkList (t : Bool) (n : Nat) (s : Bytes) :
    LaxNode (.chunked t (chunkList n s)) := by
  intro c hc
  obtain ⟨h, hhead, hlen⟩ := chunkList_lax t n s c hc
  rw [hhead]
  exact hlen

theorem writes_textField (hdet : o.deterministic = false) (hs : Utf8.Valid s) :
    Writes (textField o true s) (Item.chunked true (chunkList s.length s)).bytes := by
  intro w
  rw [Item.bytes, chunkList_bytes, textField, if_pos ⟨rfl, by rw [hdet]; exact Bool.false_ne_true⟩,
    Run.bind_of_ok (show item w = .ok ⟨⟩ (w.modifyTop Frame.item) from rfl)]
  cases o.validateUtf8 with
  | false => rfl
  | true => exact Run.bind_of_ok (checkUtf8_eq_ok.2 ⟨hs, rfl⟩) _

theorem writes_bytesField (hdet : o.deterministic = false) (b : Bytes) :
    Writes (bytesField o true b) (Item.chunked false (chunkList b.length b)).bytes := by
  intro w
  rw [Item.bytes, chunkList_bytes, bytesField, if_pos ⟨rfl, by rw [hdet]; exact Bool.false_ne_true⟩]
  rfl

/-! ### Reading -/

theorem strMajor_ne_tag (t : Bool) : strMajor t ≠ .tag := by
  cases t with
  | false => exact nofun
  | true => exact nofun

/-- At a chunked string the reader is at its head. -/
theorem chunked_headAt
    {t : Bool} {cs : List Chunk} (hin : inp.drop u.pos = (Item.chunked t cs).bytes ++ r) :
    parseHead ((Item.chunked t cs).bytes ++ r) 0 =
      { mt := strMajor t, ai := 31, indefinite := true, length := 1 } ∧
      HeadAt {} inp u.pos [] ((Item.chunked t cs).bytes ++ r) := by
  have hhead : parseHead ((Item.chunked t cs).bytes ++ r) 0 =
      { mt := strMajor t, ai := 31, indefinite := true, length := 1 } := by
    rw [parseHead_indefinite (strMajor_ne_simple t)
      (by rw [List.drop_zero, Item.bytes, List.cons_append])]
    cases t with
    | false => rfl
    | true => rfl
  refine ⟨hhead, hin, fun h => absurd rfl h, ?_⟩
  rw [hhead]
  exact ⟨one_ne_zero, rfl, rfl, strMajor_ne_tag t, fun h => strMajor_ne_simple t h.1, nofun⟩

/-- A chunked string in front is put together. -/
theorem readString_chunked
    {t : Bool} {cs : List Chunk} (hin : inp.drop u.pos = (Item.chunked t cs).bytes ++ r)
    (hcs : ∀ c ∈ cs, ChunkOk {} t c) :
    readString {} inp { mt := strMajor t, ai := 31, indefinite := true, length := 1 } (strMajor t)
    (u.behind []) =
      .ok (cs.flatMap Chunk.payload, true)
        ((u.behind []).advance (Item.chunked t cs).bytes.length) := by
  have hfront := hin
  rw [Item.bytes, List.cons_append] at hfront
  exact (readString_indefinite (s := u.behind []) rfl rfl hfront).2 ⟨rfl, cs, r, hcs, hin, rfl, rfl⟩

/-- Behind the head the operation reads the string and checks its characters. -/
theorem expectText_run
    {h : ParsedHead} (hhead : itemHead {} inp (str "text string") u = .ok h (u.behind []))
    (hmt : h.mt = strMajor true) :
    expectText {} inp u = (readString {} inp h (strMajor true) >>= finishText {} h)
      (u.behind []) := by
  rw [expectText, Run.bind_of_ok hhead, if_neg (show ¬ h.mt ≠ .text from not_not.2 hmt)]
  rfl

theorem expectText_chunked
    {cs : List Chunk} (hin : inp.drop u.pos = (Item.chunked true cs).bytes ++ r)
    (hcs : ∀ c ∈ cs, ChunkOk {} true c) :
    ∃ ref t, expectText {} inp u = .ok ref t ∧ ref.text = cs.flatMap Chunk.payload ∧
      t.pos = u.pos + (Item.chunked true cs).bytes.length ∧ t.depth = u.depth := by
  obtain ⟨hhead, hat⟩ := chunked_headAt hin
  have hrun := hat.itemHead (str "text string")
  rw [hhead] at hrun
  have hvalid := valid_flatMap_payload ((chunkOk_iff.1 hcs).2 rfl)
  rw [expectText_run hrun rfl, Run.bind_of_ok (readString_chunked hin hcs), finishText,
    Run.bind_of_ok (Run.get_apply _),
    if_pos rfl, validateUtf8_eq_none.2 hvalid]
  exact ⟨_, _, rfl, rfl, rfl, rfl⟩

theorem Item.IsString.sat {t : Bool} {x : Item} (hx : x.IsString t) (hlax : LaxNode x) :
    Sat LaxNode 0 0 x := by
  cases x with
  | str t' h payload => exact .str hlax
  | chunked t' cs => exact .chunked hlax
  | leaf m h => exact hx.elim
  | container isMap count xs => exact hx.elim
  | tag h x => exact hx.elim

/-- A text that is read has valid chunks. -/
theorem expectText_chunked_valid
    {cs : List Chunk} (hin : inp.drop u.pos = (Item.chunked true cs).bytes ++ r)
    (hlax : LaxNode (.chunked true cs))
    {ref : TextRef} {t : State} (hrun : expectText {} inp u = .ok ref t) :
    ∀ c ∈ cs, Utf8.Valid c.payload := by
  obtain ⟨hhead, hat⟩ := chunked_headAt hin
  have hhead' := hat.itemHead (str "text string")
  have hbehind : inp.drop (u.behind []).pos = (Item.chunked true cs).bytes ++ r := hin
  have hdec :=
    decides_readString
    (finishes_finishText (o := {}) (parseHead ((Item.chunked true cs).bytes ++ r) 0)) hbehind
    hat.admitted (by rw [hhead])
  rw [expectText_run hhead' (by rw [hhead])] at hrun
  rw [hrun] at hdec
  obtain ⟨x, r', heq, hx, hlax', hutf⟩ := hdec
  obtain ⟨rfl, -⟩ :=
    (Sat.chunked hlax : Sat LaxNode 0 0 _).unambiguous x 0 0 r r' (hx.sat hlax') heq
  exact hutf rfl

theorem expectBytes_chunked
    {cs : List Chunk} (hin : inp.drop u.pos = (Item.chunked false cs).bytes ++ r)
    (hlax : LaxNode (.chunked false cs)) :
    ∃ ref t, expectBytes {} inp u = .ok ref t ∧ ref.bytes = cs.flatMap Chunk.payload ∧
      t.pos = u.pos + (Item.chunked false cs).bytes.length ∧ t.depth = u.depth := by
  obtain ⟨hhead, hat⟩ := chunked_headAt hin
  have hrun := hat.itemHead (str "byte string")
  rw [hhead] at hrun
  have hcs : ∀ c ∈ cs, ChunkOk {} false c := chunkOk_iff.2 ⟨hlax, fun _ => trivial⟩
  rw [expectBytes, Run.bind_of_ok hrun, if_neg (show ¬ strMajor false ≠ .bytes from not_not.2 rfl)]
  exact ⟨_, _, Run.bind_of_ok (readString_chunked hin hcs) _, rfl, rfl, rfl⟩

/-! ### Round trips -/

/-- What the text hook writes is read as the text, wherever it stands. -/
def TextReturns (o : Options) (s : Bytes) : Prop :=
  ∃ x, Writes (textField o true s) x ∧ ∀ inp (u : State) r, inp.drop u.pos = x ++ r →
    ∃ ref t, expectText {} inp u = .ok ref t ∧ ref.text = s ∧ t.pos = u.pos + x.length ∧
      t.depth = u.depth

/-- What the bytes hook writes is read as the bytes, wherever it stands. -/
def BytesReturns (o : Options) (b : Bytes) : Prop :=
  ∃ x, Writes (bytesField o true b) x ∧ ∀ inp (u : State) r, inp.drop u.pos = x ++ r →
    ∃ ref t, expectBytes {} inp u = .ok ref t ∧ ref.bytes = b ∧ t.pos = u.pos + x.length ∧
      t.depth = u.depth

theorem bytesReturns (hdet : o.deterministic = false) (b : Bytes) : BytesReturns o b := by
  refine ⟨_, writes_bytesField hdet b, fun inp u r hin => ?_⟩
  obtain ⟨ref, t, hrun, hb, hpos, hdepth⟩ :=
    expectBytes_chunked hin (laxNode_chunkList false b.length b)
  exact ⟨ref, t, hrun, hb.trans (chunkList_payload le_rfl), hpos, hdepth⟩

theorem textReturns_iff (hdet : o.deterministic = false) (hs : Utf8.Valid s) :
    TextReturns o s ↔ CutsClean s := by
  rw [← valid_chunkList_iff le_rfl]
  constructor
  · rintro ⟨x, hwrites, hreads⟩
    obtain rfl : x = (Item.chunked true (chunkList s.length s)).bytes := by
      have hrun := (hwrites {}).symm.trans (writes_textField hdet hs {})
      exact congrArg Writer.out (EStateM.Result.ok.inj hrun).2
    obtain ⟨ref, t, hrun, -⟩ := hreads _ {} [] (List.append_nil _).symm
    exact expectText_chunked_valid (u := {}) (List.append_nil _).symm
      (laxNode_chunkList true s.length s) hrun
  · intro hvalid
    refine ⟨_, writes_textField hdet hs, fun inp u r hin => ?_⟩
    have hcs : ∀ c ∈ chunkList s.length s, ChunkOk {} true c :=
      chunkOk_iff.2 ⟨laxNode_chunkList true s.length s, fun _ => hvalid⟩
    obtain ⟨ref, t, hrun, htext, hpos, hdepth⟩ := expectText_chunked hin hcs
    exact ⟨ref, t, hrun, htext.trans (chunkList_payload le_rfl), hpos, hdepth⟩

/-- What the two hooks write comes back exactly if no character of the text lies across a cut. -/
theorem chunked_returns_iff
    (o : Options) (s b : Bytes) (hdet : o.deterministic = false) (hs : Utf8.Valid s) :
    (TextReturns o s ∧ BytesReturns o b) ↔ CutsClean s := by
  rw [textReturns_iff hdet hs]
  exact and_iff_left (bytesReturns hdet b)

theorem valid_replicate (n : Nat) {t : Bytes} (ht : Utf8.Valid t) :
    Utf8.Valid (List.replicate n 0x61 ++ t) := by
  induction n with
  | zero => exact ht
  | succ n ih =>
    rw [List.replicate_succ, List.cons_append]
    exact .ascii_cons (by decide) ih

/-- A character of two bytes ends where the text is cut. -/
theorem cutsClean_before {n : Nat} (hn : n + 2 = chunkSize) :
    CutsClean (List.replicate n 0x61 ++ [0xC3, 0xA9] ++ [0x62]) := by
  have hlen : (List.replicate n (0x61 : UInt8) ++ [0xC3, 0xA9]).length = chunkSize := by
    rw [List.length_append, List.length_replicate]
    exact hn
  rw [cutsClean_iff, List.take_left' hlen, List.drop_left' hlen]
  refine ⟨valid_replicate n (by decide), fun i => ?_⟩
  cases i with
  | zero => exact (by decide : Utf8.Valid [0x62])
  | succ i =>
    rw [List.drop_eq_nil_of_le (by rw [List.length_singleton, chunkSize]; omega), List.take_nil]
    exact .nil

/-- A text of 4097 bytes, with a character of two bytes before the cut. -/
theorem chunked_returns_iff_cut :
    TextReturns { deterministic := false } (List.replicate 4094 0x61 ++ [0xC3, 0xA9] ++ [0x62]) ∧
      BytesReturns { deterministic := false } (List.replicate 4097 0xFF) := by
  have hvalid : Utf8.Valid (List.replicate 4094 0x61 ++ ([0xC3, 0xA9] ++ [0x62])) :=
    valid_replicate 4094 (by decide)
  rw [← List.append_assoc] at hvalid
  exact (chunked_returns_iff { deterministic := false } _ _ rfl hvalid).2 (cutsClean_before rfl)

theorem valid_of_replicate (n : Nat) {t : Bytes} (h : Utf8.Valid (List.replicate n 0x61 ++ t)) :
    Utf8.Valid t := by
  induction n with
  | zero => exact h
  | succ n ih =>
    rw [List.replicate_succ, List.cons_append] at h
    exact ih (Utf8.Valid.split_ascii (s := []) (by decide) h).2

/-- A character of two bytes behind 4095 others. -/
theorem chunked_not_returns :
    ¬ ∀ (o : Options) (s b : Bytes), o.deterministic = false → Utf8.Valid s →
      TextReturns o s ∧ BytesReturns o b := by
  intro hall
  have hs : Utf8.Valid (List.replicate 4095 0x61 ++ [0xC3, 0xA9]) :=
    valid_replicate 4095 (by decide)
  have hclean := (textReturns_iff rfl hs).1 (hall { deterministic := false } _ [] rfl hs).1 0
  rw [Nat.zero_mul, List.drop_zero, chunkSize, List.take_append, List.length_replicate,
    List.take_of_length_le (by rw [List.length_replicate]; decide)] at hclean
  exact absurd (valid_of_replicate 4095 hclean) (by decide)

end VCodec.Cbor
