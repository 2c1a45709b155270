import VCodec.Cbor.Emit

/-!
# The item of a document

A document is written as one encoded item. Which one does not depend on what stands around it, and a
reader that accepts it finds every part where the document has it.
-/

namespace VCodec.Cbor

/-! ### Heads -/

theorem be_mod (n x : Nat) : be n (x % 256 ^ n) = be n x := by
  have h : ∀ k n x, n ≤ k → be n (x % 256 ^ k) = be n x := by
    intro k n x hle
    induction n with
    | zero => rfl
    | succ n ih =>
      have hpow : (256 : Nat) ^ k = 256 ^ n * 256 * 256 ^ (k - (n + 1)) := by
        rw [← pow_succ, ← pow_add]
        congr 1
        omega
      rw [be, be, ih (Nat.le_of_succ_le hle), hpow, Nat.mul_assoc, Nat.mod_mul_right_div_self,
        Nat.mod_mul_right_mod]
  exact h n n x le_rfl

/-- The shortest head of an argument. -/
def headOf (v : Nat) : Head := if h : v < 2 ^ 64 then .short v h else .short 0 (by decide)

theorem headOf_eq {v : Nat} (h : v < 2 ^ 64) : headOf v = .short v h := dif_pos h

theorem headOf_value {v : Nat} (h : v < 2 ^ 64) : (headOf v).value = v := by
  rw [headOf_eq h]
  exact rfl

theorem headOf_bytes {v : Nat} (h : v < 2 ^ 64) (m : Major) :
    (headOf v).bytes m = makeHead m v := by
  rw [headOf_eq h, makeHead_eq h]

theorem headOf_shortest (v : Nat) : (headOf v).Shortest := by
  unfold headOf
  split <;> exact Head.short_shortest _

/-- The head of a float in a width. -/
def floatHead (x : Double) : FloatWidth → Head
  | .half => ⟨.two, toHalfRounded x % 2 ^ 16, Nat.mod_lt _ (by decide)⟩
  | .single => ⟨.four, (singleOfDouble x).bits, (singleOfDouble x).bits_lt⟩
  | .double => ⟨.eight, x.bits, x.bits_lt⟩
  | .preferred =>
    match toHalf x with
    | some h => ⟨.two, h % 2 ^ 16, Nat.mod_lt _ (by decide)⟩
    | none =>
      if fitsSingle x then ⟨.four, (singleOfDouble x).bits, (singleOfDouble x).bits_lt⟩
      else ⟨.eight, x.bits, x.bits_lt⟩

theorem floatHead_bytes (x : Double) (w : FloatWidth) :
    (floatHead x w).bytes .simple = realBytes x w := by
  have hhalf : ∀ h, (⟨.two, h % 2 ^ 16, Nat.mod_lt _ (by decide)⟩ : Head).bytes .simple =
    halfBytes h := by
    intro h
    exact congrArg (0xF9 :: ·) (be_mod 2 h)
  cases w with
  | half => exact hhalf _
  | single => exact rfl
  | double => exact rfl
  | preferred =>
    unfold floatHead realBytes preferredBytes
    cases toHalf x with
    | some h => exact hhalf h
    | none =>
      simp only
      split <;> exact rfl

theorem floatHead_ai (x : Double) (w : FloatWidth) :
    25 ≤ (floatHead x w).ai ∧ (floatHead x w).ai ≤ 27 := by
  cases w with
  | half => exact (by decide : 25 ≤ 25 ∧ 25 ≤ 27)
  | single => exact (by decide : 25 ≤ 26 ∧ 26 ≤ 27)
  | double => exact (by decide : 25 ≤ 27 ∧ 27 ≤ 27)
  | preferred =>
    unfold floatHead
    cases toHalf x with
    | some h => exact (by decide : 25 ≤ 25 ∧ 25 ≤ 27)
    | none =>
      simp only
      split
      · exact (by decide : 25 ≤ 26 ∧ 26 ≤ 27)
      · exact (by decide : 25 ≤ 27 ∧ 27 ≤ 27)

/-- What a float is read as, in a width. -/
def floatBack (x : Double) (w : FloatWidth) : Double :=
  floatOf (floatHead x w).ai (floatHead x w).value

/-! ### Strings -/

/-- The chunks of a string. -/
def chunkList : Nat → Bytes → List Chunk
  | 0, _ => []
  | n + 1, t =>
    if t = [] then []
    else ⟨.definite (headOf (t.take chunkSize).length), t.take chunkSize⟩ :: chunkList n
      (t.drop chunkSize)

theorem chunkList_bytes (m : Major) (n : Nat) (t : Bytes) :
    (chunkList n t).flatMap (Chunk.bytes m) = chunks m n t := by
  induction n generalizing t with
  | zero => rfl
  | succ n ih =>
    rw [chunkList, chunks]
    split
    · rfl
    · have hlen : (t.take chunkSize).length < 2 ^ 64 :=
        (List.length_take_le _ _).trans_lt (by decide)
      rw [List.flatMap_cons, ih, Chunk.bytes, ChunkHead.bytes, headOf_bytes hlen]

theorem chunkList_payload {n : Nat} {t : Bytes} (hn : t.length ≤ n) :
    (chunkList n t).flatMap Chunk.payload = t := by
  induction n generalizing t with
  | zero =>
    rw [List.length_eq_zero_iff.1 (Nat.le_zero.1 hn)]
    exact rfl
  | succ n ih =>
    rw [chunkList]
    split
    · rename_i hnil
      rw [hnil]
      exact rfl
    · rename_i hne
      have hpos := List.length_pos_iff.2 hne
      have hsize : (t.drop chunkSize).length ≤ n := by
        rw [List.length_drop, chunkSize]
        omega
      rw [List.flatMap_cons, ih hsize]
      exact List.take_append_drop _ _

theorem chunkList_lax (isText : Bool) (n : Nat) (t : Bytes) :
    WellFormedNode (.chunked isText (chunkList n t)) := by
  induction n generalizing t with
  | zero => exact List.forall_mem_nil _
  | succ n ih =>
    rw [chunkList]
    split
    · exact List.forall_mem_nil _
    · have hlen : (t.take chunkSize).length < 2 ^ 64 :=
        (List.length_take_le _ _).trans_lt (by decide)
      exact List.forall_mem_cons.2 ⟨⟨_, rfl, (headOf_value hlen).symm⟩, ih _⟩

/-! ### The item of a document -/

def intItem (i : Int) : Item :=
  if 0 ≤ i then .leaf .uint (headOf i.toNat) else .leaf .nint (headOf (-1 - i).toNat)

def strItem (o : Options) (isText indefinite : Bool) (t : Bytes) : Item :=
  if indefinite ∧ ¬ o.deterministic then .chunked isText (chunkList t.length t) else .str isText
    (headOf t.length) t

def keyItem : DocKey → Item
  | .text k | .name k => .str true (headOf k.length) k
  | .uint n => .leaf .uint (headOf n)
  | .sint i | .intName i => intItem i

section

variable (o : Options)

mutual

def docItem : Doc → Item
  | .null => .leaf .simple (headOf 22)
  | .boolean b => .leaf .simple (headOf (if b then 21 else 20))
  | .uint _ n => .leaf .uint (headOf n)
  | .sint _ i => intItem i
  | .real f x => .leaf .simple (floatHead x (f.floatWidth.getD o.floats))
  | .text f t => strItem o true f.indefinite t
  | .bytes f b => strItem o false f.indefinite b
  | .range t v =>
    .tag (headOf (typedArrayTag (rangeShape t).1))
      (.str false (headOf (rangeData t v).length) (rangeData t v))
  | .tag n d => .tag (headOf n) (docItem d)
  | .array f n ds =>
    .container false
      ((if o.deterministic then some (n.getD ds.length) else laxCount o f.indefinite n).map headOf)
      (docItems ds)
  | .map f n es =>
    .container true ((if o.deterministic then some es.length else laxCount o f.indefinite n).map
      headOf)
      (alternate (if o.deterministic then sortEntries (docEntries es) else docEntries es))
  | .members n es =>
    .container true ((if o.deterministic ∨ ¬ o.indefinite then some n else none).map headOf)
      (alternate (docEntries es))

def docItems : List Doc → List Item
  | [] => []
  | d :: ds => docItem d :: docItems ds

def docEntries : List (DocKey × Doc) → List (Item × Item)
  | [] => []
  | (k, d) :: es => (keyItem k, docItem d) :: docEntries es

end

theorem docItems_eq (ds : List Doc) : docItems o ds = ds.map (docItem o) := by
  induction ds with
  | nil => rfl
  | cons d ds ih => rw [docItems, ih, List.map_cons]

/-- The item of an entry. -/
def docEntry (e : DocKey × Doc) : Item × Item := (keyItem e.1, docItem o e.2)

theorem docEntries_eq (es : List (DocKey × Doc)) : docEntries o es = es.map (docEntry o) := by
  induction es with
  | nil => rfl
  | cons e es ih => rw [docEntries, ih, List.map_cons]; exact rfl

end

/-! ### What a document holds -/

def FitsKey : DocKey → Prop
  | .text k | .name k => k.length < 2 ^ 63
  | .uint n => n < 2 ^ 64
  | .sint i | .intName i => Int64Range i

mutual

/-- The numbers have the ranges of their types, and the counts are those of the parts. -/
def Fits : Doc → Prop
  | .uint _ n => n < 2 ^ 64
  | .sint _ i => Int64Range i
  | .text _ t | .bytes _ t => t.length < 2 ^ 63
  | .range t v => (rangeData t v).length < 2 ^ 63
  | .tag n d => n < 2 ^ 64 ∧ Fits d
  | .array _ n ds => ds.length < 2 ^ 63 ∧ (∀ c ∈ n, c = ds.length) ∧ FitsEach ds
  | .map _ n es => es.length < 2 ^ 63 ∧ (∀ c ∈ n, c = es.length) ∧ FitsEntries es
  | .members n es => es.length < 2 ^ 63 ∧ n = es.length ∧ FitsEntries es
  | _ => True

def FitsEach : List Doc → Prop
  | [] => True
  | d :: ds => Fits d ∧ FitsEach ds

def FitsEntries : List (DocKey × Doc) → Prop
  | [] => True
  | (k, d) :: es => FitsKey k ∧ Fits d ∧ FitsEntries es

end

theorem fitsEach_iff {ds : List Doc} : FitsEach ds ↔ ∀ d ∈ ds, Fits d := by
  induction ds with
  | nil => exact iff_of_true trivial fun _ h => nomatch h
  | cons d ds ih => rw [FitsEach, ih, List.forall_mem_cons]

theorem fitsEntries_iff {es : List (DocKey × Doc)} :
    FitsEntries es ↔ ∀ e ∈ es, FitsKey e.1 ∧ Fits e.2 := by
  induction es with
  | nil => exact iff_of_true trivial fun _ h => nomatch h
  | cons e es ih => rw [FitsEntries, ih, List.forall_mem_cons, and_assoc]

/-! ### Its bytes -/

theorem typedArrayTag_lt (t : Ty) : typedArrayTag t < 88 := by
  unfold typedArrayTag
  split
  · decide
  · decide
  · split <;> decide
  · split <;> decide
  · decide

section

variable {o : Options}

theorem lt64 {n : Nat} (h : n < 2 ^ 63) : n < 2 ^ 64 := h.trans (by decide)

theorem intItem_bytes {i : Int} (h : Int64Range i) : (intItem i).bytes = intHead i := by
  obtain ⟨hlo, hhi⟩ := h
  unfold intItem intHead
  split
  · exact headOf_bytes (by omega) _
  · exact headOf_bytes (by omega) _

theorem strItem_bytes (isText indefinite : Bool) {t : Bytes} (h : t.length < 2 ^ 63) :
    (strItem o isText indefinite t).bytes =
      if isText then textBytes o indefinite t else bytesBytes o indefinite t := by
  unfold strItem textBytes bytesBytes
  by_cases hchunks : indefinite = true ∧ ¬ o.deterministic = true
  · rw [if_pos hchunks, if_pos hchunks, if_pos hchunks, Item.bytes, chunkList_bytes]
    cases isText <;> rfl
  · rw [if_neg hchunks, if_neg hchunks, if_neg hchunks, Item.bytes, headOf_bytes (lt64 h)]
    cases isText <;> rfl

theorem keyItem_bytes {k : DocKey} (h : FitsKey k) : (keyItem k).bytes = wireKey k := by
  cases k with
  | text k => exact congrArg (· ++ k) (headOf_bytes (lt64 h) _)
  | name k => exact congrArg (· ++ k) (headOf_bytes (lt64 h) _)
  | uint n => exact headOf_bytes h _
  | sint i => exact intItem_bytes h
  | intName i => exact intItem_bytes h

theorem container_bytes (isMap : Bool) {n : Option Nat} (hn : ∀ c ∈ n, c < 2 ^ 64)
    (xs : List Item) :
    (Item.container isMap (n.map headOf) xs).bytes =
      openBytes (containerMajor isMap) n (Item.bytesList xs) := by
  cases n with
  | none => exact rfl
  | some c => exact congrArg (· ++ Item.bytesList xs) (headOf_bytes (hn c rfl) _)

theorem laxCount_eq {indefinite : Bool} {n : Option Nat} {k c : Nat} (h : ∀ c ∈ n, c = k)
    (hc : c ∈ laxCount o indefinite n) : c = k := by
  unfold laxCount at hc
  split at hc
  · cases hc
  · exact h c hc

theorem sortEntries_bytes (es : List (Item × Item)) :
    (sortEntries es).map itemBytes = sortEntriesBytes (es.map itemBytes) :=
  List.map_insertionSort _ _ _ _ fun _ _ _ _ => Iff.rfl

/-- The count of a container is the number of its parts. -/
theorem arrayCount_eq {f : FieldMeta} {n : Option Nat} {k : Nat} (h : ∀ c ∈ n, c = k) :
    ∀ c ∈ (if o.deterministic then some (n.getD k) else laxCount o f.indefinite n), c = k := by
  intro c hc
  split at hc
  · rw [sizeOf_getD n k h, Option.mem_some_iff] at hc
    exact hc.symm
  · exact laxCount_eq h hc

mutual

/-- The bytes of a document are those of its item. -/
theorem docItem_bytes {d : Doc} (h : Fits d) : (docItem o d).bytes = wire o d := by
  cases d with
  | null => exact headOf_bytes (by decide) _
  | boolean b => cases b <;> exact headOf_bytes (by decide) _
  | uint f n => exact headOf_bytes h _
  | sint f i => exact intItem_bytes h
  | real f x => exact floatHead_bytes _ _
  | text f t => exact strItem_bytes true f.indefinite h
  | bytes f b => exact strItem_bytes false f.indefinite h
  | range t v =>
    have htag : typedArrayTag (rangeShape t).1 < 2 ^ 64 := (typedArrayTag_lt _).trans (by decide)
    rw [docItem, wire, Item.bytes, Item.bytes, headOf_bytes htag, headOf_bytes (lt64 h)]
    exact rfl
  | tag n d => rw [docItem, wire, Item.bytes, headOf_bytes h.1, docItem_bytes h.2]
  | array f n ds =>
    obtain ⟨hlen, hcount, hds⟩ := h
    have hcounts := arrayCount_eq (o := o) (f := f) hcount
    rw [docItem, wire, container_bytes false (fun c hc => hcounts c hc ▸ lt64 hlen),
      docItems_bytes hds, arrayBytes, length_wireEach]
    split <;> exact rfl
  | map f n es =>
    obtain ⟨hlen, hcount, hes⟩ := h
    have hcounts : ∀ c ∈ (if o.deterministic then some es.length else laxCount o f.indefinite n),
      c = es.length := by
      intro c hc
      split at hc
      · exact (Option.mem_some_iff.1 hc).symm
      · exact laxCount_eq hcount hc
    have hwire : (wireEntries o es).length = es.length := by rw [wireEntries_eq, List.length_map]
    rw [docItem, wire, container_bytes true (fun c hc => hcounts c hc ▸ lt64 hlen), mapBytes,
      hwire, ← entryBytes_eq]
    split
    · rw [sortEntries_bytes, docEntries_bytes hes]
      exact rfl
    · rw [docEntries_bytes hes]
      exact rfl
  | members n es =>
    obtain ⟨hlen, rfl, hes⟩ := h
    have hcounts : ∀ c ∈ (if o.deterministic = true ∨
      ¬ o.indefinite = true then some es.length else none), c < 2 ^ 64 := by
      intro c hc
      split at hc
      · exact (Option.mem_some_iff.1 hc) ▸ lt64 hlen
      · cases hc
    rw [docItem, wire, container_bytes true hcounts, membersBytes, ← entryBytes_eq,
      docEntries_bytes hes]
    exact rfl

theorem docItems_bytes {ds : List Doc} (h : FitsEach ds) :
    Item.bytesList (docItems o ds) = (wireEach o ds).flatten := by
  match ds with
  | [] => exact rfl
  | d :: ds =>
    rw [docItems, wireEach, Item.bytesList, docItem_bytes h.1, docItems_bytes h.2]
    exact rfl

theorem docEntries_bytes {es : List (DocKey × Doc)} (h : FitsEntries es) :
    (docEntries o es).map itemBytes = wireEntries o es := by
  match es with
  | [] => exact rfl
  | (k, d) :: es =>
    rw [docEntries, wireEntries, List.map_cons, docEntries_bytes h.2.2, itemBytes,
      keyItem_bytes h.1, docItem_bytes h.2.1]

end

/-! ### What a reader accepts of it -/

/-- The name of a member is text. -/
def LegibleKey : DocKey → Prop
  | .name k => Utf8.Valid k
  | _ => True

mutual

/-- What the writer does not look at: the names of members, where a text is cut; and for a strict
reader, the form of floats and the order of members. -/
def Legible (o : Options) (strict : Bool) : Doc → Prop
  | .real f x =>
    strict = true → PreferredFloat (floatHead x (f.floatWidth.getD o.floats)).ai
      (floatHead x (f.floatWidth.getD o.floats)).value
  | .text f t =>
    f.indefinite = true ∧ ¬ o.deterministic = true →
      ∀ c ∈ chunkList t.length t, Utf8.Valid c.payload
  | .tag _ d => Legible o strict d
  | .array _ _ ds => LegibleEach o strict ds
  | .map _ _ es => LegibleEntries o strict es
  | .members _ es =>
    (strict = true → (es.map fun e => wireKey e.1).Pairwise (· < ·)) ∧ LegibleEntries o strict es
  | _ => True

def LegibleEach (o : Options) (strict : Bool) : List Doc → Prop
  | [] => True
  | d :: ds => Legible o strict d ∧ LegibleEach o strict ds

def LegibleEntries (o : Options) (strict : Bool) : List (DocKey × Doc) → Prop
  | [] => True
  | (k, d) :: es => LegibleKey k ∧ Legible o strict d ∧ LegibleEntries o strict es

end

theorem legibleEach_iff {strict : Bool} {ds : List Doc} :
    LegibleEach o strict ds ↔ ∀ d ∈ ds, Legible o strict d := by
  induction ds with
  | nil => exact iff_of_true trivial fun _ h => nomatch h
  | cons d ds ih => rw [LegibleEach, ih, List.forall_mem_cons]

theorem legibleEntries_iff {strict : Bool} {es : List (DocKey × Doc)} :
    LegibleEntries o strict es ↔ ∀ e ∈ es, LegibleKey e.1 ∧ Legible o strict e.2 := by
  induction es with
  | nil => exact iff_of_true trivial fun _ h => nomatch h
  | cons e es ih => rw [LegibleEntries, ih, List.forall_mem_cons, and_assoc]

section

variable {p : Item → Prop} {max n : Nat}

theorem sat_leaf {m : Major} {h : Head} :
    Sat p max n (.leaf m h) ↔ p (.leaf m h) := ⟨Sat.node, .leaf⟩

theorem sat_str {isText : Bool} {h : Head} {t : Bytes} :
    Sat p max n (.str isText h t) ↔ p (.str isText h t) :=
  ⟨Sat.node, .str⟩

theorem sat_chunked {isText : Bool} {cs : List Chunk} :
    Sat p max n (.chunked isText cs) ↔ p (.chunked isText cs) :=
  ⟨Sat.node, .chunked⟩

theorem sat_container {isMap : Bool} {count : Option Head} {xs : List Item} :
    Sat p max n (.container isMap count xs) ↔
      p (.container isMap count xs) ∧ n < max ∧ ∀ x ∈ xs, Sat p max (n + 1) x := by
  constructor
  · intro h
    cases h with
    | container hp hd hxs => exact ⟨hp, hd, hxs⟩
  · exact fun h => .container h.1 h.2.1 h.2.2

theorem sat_tag {h : Head} {x : Item} : Sat p max n (.tag h x) ↔ p (.tag h x) ∧ Sat p max n x := by
  constructor
  · intro h
    cases h with
    | tag hp hx => exact ⟨hp, hx⟩
  · exact fun h => .tag h.1 h.2

end

section

variable {D : Options} {n : Nat}

theorem accepts_int {i : Int} : Accepts D n (intItem i) := by
  unfold intItem
  split
  · exact sat_leaf.2 ⟨⟨.inl rfl, fun h => by cases h⟩, fun _ => trivial,
      fun _ => ⟨fun _ => headOf_shortest _, fun h => by cases h⟩⟩
  · exact sat_leaf.2
      ⟨⟨.inr (.inl rfl), fun h => by cases h⟩, fun _ => trivial,
        fun _ => ⟨fun _ => headOf_shortest _, fun h => by cases h⟩⟩

theorem accepts_uint (k : Nat) : Accepts D n (.leaf .uint (headOf k)) :=
  sat_leaf.2 ⟨⟨.inl rfl, fun h => by cases h⟩, fun _ => trivial,
    fun _ => ⟨fun _ => headOf_shortest _, fun h => by cases h⟩⟩

theorem accepts_simple {k : Nat} (hk : k < 24) : Accepts D n (.leaf .simple (headOf k)) := by
  have hai : (headOf k).ai = k := by
    rw [headOf_eq (by omega), Head.ai]
    simp only [Head.short, Width.of, if_pos hk]
  refine sat_leaf.2 ⟨⟨.inr (.inr rfl), fun _ h => ?_⟩, fun _ => trivial,
    fun _ => ⟨fun h => absurd rfl h, fun _ h => ?_⟩⟩
  · omega
  · omega

theorem accepts_float (x : Double) (w : FloatWidth) :
    Accepts D n (.leaf .simple (floatHead x w)) ↔
      (D.requireDeterministic = true →
        PreferredFloat (floatHead x w).ai (floatHead x w).value) := by
  have hai := floatHead_ai x w
  rw [Accepts, sat_leaf]
  constructor
  · exact fun h hs => (h.2.2 hs).2 rfl hai.1
  · exact fun h => ⟨⟨.inr (.inr rfl), fun _ h24 => by omega⟩, fun _ => trivial,
      fun hs => ⟨fun h => absurd rfl h, fun _ _ => h hs⟩⟩

theorem accepts_str {isText : Bool} {t : Bytes} (ht : t.length < 2 ^ 63)
    (hvalid : D.validateUtf8 = true → isText = true → Utf8.Valid t) :
    Accepts D n (.str isText (headOf t.length) t) := by
  refine sat_str.2 ⟨(headOf_value (lt64 ht)).symm, fun hv => ?_, fun _ => headOf_shortest _⟩
  cases isText with
  | false => trivial
  | true => exact hvalid hv rfl

/-- A string in chunks is read if each chunk of a text is a text. -/
theorem accepts_strItem {isText indefinite : Bool} {t : Bytes} (hutf : D.validateUtf8 = true)
    (hstrict : D.requireDeterministic = true → o.deterministic = true) (ht : t.length < 2 ^ 63)
    (hvalid : isText = true → Utf8.Valid t) :
    Accepts D n (strItem o isText indefinite t) ↔
      (isText = true → indefinite = true ∧ ¬ o.deterministic = true →
        ∀ c ∈ chunkList t.length t, Utf8.Valid c.payload) := by
  unfold strItem
  by_cases hchunks : indefinite = true ∧ ¬ o.deterministic = true
  · rw [if_pos hchunks, Accepts, sat_chunked]
    have hlax : LaxNode (.chunked isText (chunkList t.length t)) := by
      intro c hc
      obtain ⟨h, hhead, hlen⟩ := chunkList_lax isText t.length t c hc
      rw [hhead]
      exact hlen
    have hcanonical : D.requireDeterministic = true →
      CanonicalNode (.chunked isText (chunkList t.length t)) := fun hs =>
      absurd (hstrict hs) hchunks.2
    have hnode : SkipNode D.validateUtf8 D.requireDeterministic
      (.chunked isText (chunkList t.length t)) ↔
        Utf8Node (.chunked isText (chunkList t.length t)) :=
      ⟨fun h => h.2.1 hutf, fun h => ⟨hlax, fun _ => h, hcanonical⟩⟩
    rw [hnode]
    cases isText with
    | false => exact iff_of_true trivial fun h => by cases h
    | true => exact ⟨fun h _ _ => h, fun h => h rfl hchunks⟩
  · rw [if_neg hchunks]
    exact iff_of_true (accepts_str ht fun _ => hvalid) fun _ h => absurd h hchunks

theorem accepts_key {k : DocKey} (hutf : D.validateUtf8 = true) (hutf' : o.validateUtf8 = true)
    (hfits : FitsKey k) (hsound : SoundKey o k) : Accepts D n (keyItem k) ↔ LegibleKey k := by
  cases k with
  | text k => exact iff_of_true (accepts_str hfits fun _ _ => hsound hutf') trivial
  | name k =>
    constructor
    · exact fun h => (sat_str.1 h).2.1 hutf
    · exact fun h => accepts_str hfits fun _ _ => h
  | uint k => exact iff_of_true (accepts_uint k) trivial
  | sint i => exact iff_of_true accepts_int trivial
  | intName i => exact iff_of_true accepts_int trivial

theorem keysAscend_iff {es : List (Item × Item)} {prev : Option Bytes} :
    KeysAscend true prev (alternate es) ↔
      (es.Pairwise fun a b => a.1.bytes < b.1.bytes) ∧ ∀ p ∈ prev, ∀ e ∈ es, p < e.1.bytes := by
  refine ⟨fun h => ?_, fun h => keysAscend_alternate h.1 h.2⟩
  induction es generalizing prev with
  | nil => exact ⟨.nil, fun _ _ => List.forall_mem_nil _⟩
  | cons e es ih =>
    obtain ⟨hprev, hrest⟩ := h
    obtain ⟨hpair, hfirst⟩ := ih hrest
    have hafter := hfirst _ (Option.mem_some_self _)
    refine ⟨List.pairwise_cons.2 ⟨hafter, hpair⟩,
      fun p hp => List.forall_mem_cons.2 ⟨hprev p hp, fun e' he' => ?_⟩⟩
    exact (hprev p hp).trans (hafter e' he')

theorem container_node (isMap : Bool) (xs : List Item) {count : Option Nat} {k : Nat}
    (hlen : xs.length = if isMap then 2 * k else k) (hk : k < 2 ^ 63) (hcount : ∀ c ∈ count, c = k)
    (hstrict : D.requireDeterministic = true → count.isSome = true) :
    SkipNode D.validateUtf8 D.requireDeterministic (.container isMap (count.map headOf) xs) ↔
      (D.requireDeterministic = true → isMap = true → KeysAscend true none xs) := by
  cases count with
  | none =>
    have hlax : D.requireDeterministic = false := by
      cases hs : D.requireDeterministic with
      | false => rfl
      | true => exact absurd (hstrict hs) Bool.false_ne_true
    refine iff_of_true ⟨fun hmap => ?_, fun _ => trivial, fun hs => ?_⟩ fun hs => ?_
    · rw [hlen, if_pos hmap]
      omega
    · rw [hlax] at hs
      cases hs
    · rw [hlax] at hs
      cases hs
  | some c =>
    obtain rfl := hcount c rfl
    have hvalue : (headOf c).value = c := headOf_value (lt64 hk)
    constructor
    · exact fun h hs => (h.2.2 hs).2
    · refine fun h => ⟨?_, fun _ => trivial, fun hs => ⟨headOf_shortest c, h hs⟩⟩
      show xs.length = skipCount isMap (headOf c).value
      rw [hvalue, skipCount_of_le fun _ => hk.le, hlen]

end

theorem pairwise_sortEntries {es : List (Item × Item)} (h : (es.map fun e => e.1.bytes).Nodup) :
    (sortEntries es).Pairwise fun a b => a.1.bytes < b.1.bytes := by
  have hperm : (sortEntries es).Perm es := List.perm_insertionSort _ _
  have hle : (sortEntries es).Pairwise fun a b => a.1.bytes ≤ b.1.bytes :=
    List.pairwise_insertionSort _ _
  have hnodup := (hperm.map fun e => e.1.bytes).nodup_iff.2 h
  have hne : (sortEntries es).Pairwise fun a b => a.1.bytes ≠ b.1.bytes :=
    List.pairwise_map.1 hnodup
  exact (hle.and hne).imp fun h => lt_of_le_of_ne h.1 h.2

theorem docEntries_keys {es : List (DocKey × Doc)} (h : FitsEntries es) :
    (docEntries o es).map (fun e => e.1.bytes) = es.map fun e => wireKey e.1 := by
  have hes := fitsEntries_iff.1 h
  rw [docEntries_eq, List.map_map]
  exact List.map_congr_left fun e he => keyItem_bytes (hes e he).1

theorem length_docItems (ds : List Doc) : (docItems o ds).length = ds.length := by
  rw [docItems_eq, List.length_map]

theorem length_docEntries (es : List (DocKey × Doc)) : (docEntries o es).length = es.length := by
  rw [docEntries_eq, List.length_map]

/-- A reader that keeps to what the writer is to write. -/
structure Suits (o D : Options) : Prop where
  writes : o.validateUtf8 = true
  reads : D.validateUtf8 = true
  depth : o.maxDepth ≤ D.maxDepth
  strict : D.requireDeterministic = true → o.deterministic = true

section

variable {D : Options}

mutual

/-- The reader accepts what is written, but for what the writer does not look at. -/
theorem accepts_iff (hs : Suits o D) {n : Nat} {d : Doc} (hsound : Sound o n d) (hfits : Fits d)
    (hdistinct : o.deterministic = true → Distinct d) :
    Accepts D n (docItem o d) ↔ Legible o D.requireDeterministic d := by
  cases d with
  | null => exact iff_of_true (accepts_simple (by decide)) trivial
  | boolean b => exact iff_of_true (accepts_simple (by cases b <;> decide)) trivial
  | uint f k => exact iff_of_true (accepts_uint k) trivial
  | sint f i => exact iff_of_true accepts_int trivial
  | real f x => exact accepts_float x _
  | text f t =>
    rw [docItem, accepts_strItem hs.reads hs.strict hfits fun _ => hsound hs.writes]
    exact ⟨fun h => h rfl, fun h _ => h⟩
  | bytes f b =>
    rw [docItem, accepts_strItem hs.reads hs.strict hfits fun h => by cases h]
    exact iff_of_true (fun h => by cases h) trivial
  | range t v =>
    refine iff_of_true (sat_tag.2 ⟨⟨trivial, fun _ => trivial, fun _ => headOf_shortest _⟩, ?_⟩)
      trivial
    exact accepts_str hfits fun _ h => by cases h
  | tag k d =>
    rw [docItem, Accepts, sat_tag]
    have ih := accepts_iff hs (n := n) (d := d) hsound hfits.2 hdistinct
    exact ⟨fun h => ih.1 h.2, fun h =>
      ⟨⟨trivial, fun _ => trivial, fun _ => headOf_shortest _⟩, ih.2 h⟩⟩
  | array f c ds =>
    obtain ⟨hlen, hcount, hds⟩ := hfits
    have ih := accepts_each hs (n := n + 1) hsound.2 hds hdistinct
    have hcounts := arrayCount_eq (o := o) (f := f) hcount
    have hnode := container_node (D := D) false _ (length_docItems (o := o) ds) hlen hcounts
      fun hd => by
      rw [if_pos (hs.strict hd)]
      exact rfl
    rw [docItem, Accepts, sat_container, hnode]
    constructor
    · exact fun h => ih.1 h.2.2
    · exact fun h => ⟨(fun _ hmap => by cases hmap), hsound.1.trans_le hs.depth, ih.2 h⟩
  | map f c es =>
    obtain ⟨hlen, hcount, hes⟩ := hfits
    have ih := accepts_entries hs (n := n + 1) hsound.2 hes fun h => (hdistinct h).2
    have hcounts : ∀ k ∈ (if o.deterministic then some es.length else laxCount o f.indefinite c),
      k = es.length := by
      intro k hk
      split at hk
      · exact (Option.mem_some_iff.1 hk).symm
      · exact laxCount_eq hcount hk
    have hperm : (if o.deterministic then sortEntries (docEntries o es) else docEntries o es).Perm
      (docEntries o es) := by
      split
      · exact List.perm_insertionSort _ _
      · exact .refl _
    have hnode := container_node (D := D) true
      (alternate (if o.deterministic then sortEntries (docEntries o es) else docEntries o es))
      (by rw [length_alternate, hperm.length_eq, length_docEntries, if_pos rfl]) hlen hcounts
        fun hd => by
        rw [if_pos (hs.strict hd)]
        exact rfl
    rw [docItem, Accepts, sat_container, hnode, forall_mem_alternate]
    constructor
    · exact fun h => ih.1 fun e he => h.2.2 e (hperm.mem_iff.2 he)
    · refine fun h => ⟨fun hd _ => ?_, hsound.1.trans_le hs.depth,
        fun e he => ih.2 h e (hperm.mem_iff.1 he)⟩
      rw [if_pos (hs.strict hd), keysAscend_iff]
      refine ⟨pairwise_sortEntries ?_, fun _ hp => nomatch hp⟩
      rw [docEntries_keys hes]
      exact (hdistinct (hs.strict hd)).1
  | members c es =>
    obtain ⟨hlen, rfl, hes⟩ := hfits
    have ih := accepts_entries hs (n := n + 1) hsound.2 hes hdistinct
    have hcounts : ∀ k ∈ (if o.deterministic = true ∨
      ¬ o.indefinite = true then some es.length else none),
        k = es.length := by
      intro k hk
      split at hk
      · exact (Option.mem_some_iff.1 hk).symm
      · cases hk
    have hnode := container_node (D := D) true (alternate (docEntries o es))
      (by rw [length_alternate, length_docEntries, if_pos rfl]) hlen hcounts fun hd => by
        rw [if_pos (.inl (hs.strict hd))]
        exact rfl
    have hkeys : KeysAscend true none (alternate (docEntries o es)) ↔
        (es.map fun e => wireKey e.1).Pairwise (· < ·) := by
      rw [keysAscend_iff, ← docEntries_keys (o := o) hes, List.pairwise_map]
      exact and_iff_left fun _ hp => nomatch hp
    rw [docItem, Accepts, sat_container, hnode, forall_mem_alternate, hkeys]
    constructor
    · exact fun h => ⟨fun hd => h.1 hd rfl, ih.1 h.2.2⟩
    · exact fun h => ⟨fun hd _ => h.1 hd, hsound.1.trans_le hs.depth, ih.2 h.2⟩

theorem accepts_each (hs : Suits o D) {n : Nat} {ds : List Doc} (hsound : SoundAll o n ds)
    (hfits : FitsEach ds) (hdistinct : o.deterministic = true → DistinctAll ds) :
    (∀ x ∈ docItems o ds, Accepts D n x) ↔ LegibleEach o D.requireDeterministic ds := by
  match ds with
  | [] => exact iff_of_true (List.forall_mem_nil _) trivial
  | d :: ds =>
    rw [docItems, List.forall_mem_cons, LegibleEach,
      accepts_iff hs hsound.1 hfits.1 fun h => (hdistinct h).1,
      accepts_each hs hsound.2 hfits.2 fun h => (hdistinct h).2]

theorem accepts_entries (hs : Suits o D) {n : Nat} {es : List (DocKey × Doc)}
    (hsound : SoundEntries o n es) (hfits : FitsEntries es)
    (hdistinct : o.deterministic = true → DistinctEntries es) :
    (∀ e ∈ docEntries o es, Accepts D n e.1 ∧ Accepts D n e.2) ↔
      LegibleEntries o D.requireDeterministic es := by
  match es with
  | [] => exact iff_of_true (List.forall_mem_nil _) trivial
  | (k, d) :: es =>
    rw [docEntries, List.forall_mem_cons, LegibleEntries,
      accepts_key hs.reads hs.writes hfits.1 hsound.1,
      accepts_iff hs hsound.2.1 hfits.2.1 fun h => (hdistinct h).1,
      accepts_entries hs hsound.2.2 hfits.2.2 fun h => (hdistinct h).2, and_assoc]

end

end

end

end VCodec.Cbor
