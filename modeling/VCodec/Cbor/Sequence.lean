import VCodec.Cbor.Frames
import VCodec.Cbor.WellFormed

/-!
# Sequences of sink calls

A well-bracketed sequence of calls on a deterministic writer that does not throw appends one
canonical item for every value it denotes. `Denotes` is the bracketing; the induction over it keeps
`Spec`, which says what a run of the sequence has done to the writer and, as long as the result
fits in 64 bits of length, which items the appended bytes are.

The writer checks the text of a key but not the name of a prepared key. So the text in the items is
valid exactly when the prepared names are (`writesItem_iff`).
-/

namespace VCodec.Cbor

/-- The sink calls that take no annotation into account. -/
inductive Call
  | null
  | boolean (b : Bool)
  | uint (u : Nat)
  | sint (i : Int)
  | real (d : Double)
  | negative (n : Nat)
  | simple (v : UInt8)
  | text (t : Bytes)
  | bytes (b : Bytes)
  | writeRange (tag : Nat) (data : Bytes)
  | tag (t : Nat)
  | beginArray (n : Option Nat)
  | endArray
  | beginMap (n : Option Nat)
  | endMap
  | key (k : Bytes)
  | keyUint (k : Nat)
  | keySint (k : Int)
  | preparedKey (name : Bytes)
  | preparedIntKey (k : Int)
  | beginKey
  | endKey
  deriving DecidableEq

def Call.run (o : Options) : Call → W Unit
  | .null => Cbor.null
  | .boolean b => Cbor.boolean b
  | .uint u => Cbor.uint u
  | .sint i => Cbor.sint i
  | .real d => Cbor.real o d
  | .negative n => Cbor.negative n
  | .simple v => Cbor.simple v
  | .text t => Cbor.text o t
  | .bytes b => Cbor.bytes b
  | .writeRange t data => Cbor.writeRange t data
  | .tag t => Cbor.tag t
  | .beginArray n => Cbor.beginArray o n
  | .endArray => Cbor.endArray
  | .beginMap n => Cbor.beginMap o n
  | .endMap => Cbor.endMap
  | .key k => Cbor.key o k
  | .keyUint k => Cbor.keyUint k
  | .keySint k => Cbor.keySint k
  | .preparedKey name => Cbor.preparedKey name
  | .preparedIntKey k => Cbor.preparedIntKey k
  | .beginKey => Cbor.beginKey
  | .endKey => Cbor.endKey

def runCalls (o : Options) : List Call → W Unit
  | [] => pure ()
  | c :: cs => do
    c.run o
    runCalls o cs

/-- The range of `std::int64_t`. -/
def Int64Range (i : Int) : Prop := -2 ^ 63 ≤ i ∧ i < 2 ^ 63

/-- The call writes a whole value. Integer arguments are in the range of their type. -/
def Call.IsValue : Call → Prop
  | .null | .boolean _ | .real _ | .simple _ | .text _ | .bytes _ => True
  | .uint n | .negative n | .writeRange n _ => n < 2 ^ 64
  | .sint i => Int64Range i
  | _ => False

/-- The call writes a whole key. -/
def Call.IsKey : Call → Prop
  | .key _ | .preparedKey _ => True
  | .keyUint k => k < 2 ^ 64
  | .keySint k | .preparedIntKey k => Int64Range k
  | _ => False

inductive Shape
  | values (n : Nat)
  | entries

/-- The sequence is well bracketed, and denotes so many values, or entries of a map. -/
inductive Denotes : Shape → List Call → Prop
  | noValue : Denotes (.values 0) []
  | value {c : Call} (hc : c.IsValue) : Denotes (.values 1) [c]
  | tag {t : Nat} {cs : List Call} (ht : t < 2 ^ 64) (hcs : Denotes (.values 1) cs) :
      Denotes (.values 1) (.tag t :: cs)
  | array {n : Option Nat} {k : Nat} {cs : List Call} (hn : ∀ c ∈ n, c = k)
      (hcs : Denotes (.values k) cs) :
      Denotes (.values 1) (.beginArray n :: (cs ++ [.endArray]))
  | map {n : Option Nat} {cs : List Call} (hcs : Denotes .entries cs) :
      Denotes (.values 1) (.beginMap n :: (cs ++ [.endMap]))
  | append {j k : Nat} {cs ds : List Call} (hcs : Denotes (.values j) cs)
      (hds : Denotes (.values k) ds) :
      Denotes (.values (j + k)) (cs ++ ds)
  | noEntry : Denotes .entries []
  | entry {c : Call} {vs cs : List Call} (hc : c.IsKey) (hvs : Denotes (.values 1) vs)
      (hcs : Denotes .entries cs) : Denotes .entries (c :: (vs ++ cs))
  | keyEntry {ks vs cs : List Call} (hks : Denotes (.values 1) ks) (hvs : Denotes (.values 1) vs)
      (hcs : Denotes .entries cs) : Denotes .entries (.beginKey :: (ks ++ .endKey :: (vs ++ cs)))

/-- The names of prepared keys are valid text. -/
def NamesValid (cs : List Call) : Prop := ∀ name, .preparedKey name ∈ cs → Utf8.Valid name

/-! ### Runs of calls -/

section

variable {o : Options} {w w' : Writer} {cs ds : List Call}

theorem runCalls_cons {c : Call} :
    runCalls o (c :: cs) w = .ok () w' ↔ ∃ w₁, c.run o w = .ok () w₁ ∧
      runCalls o cs w₁ = .ok () w' := by
  rw [runCalls, Run.bind_eq_ok]
  constructor
  · rintro ⟨⟨⟩, w₁, h⟩
    exact ⟨w₁, h⟩
  · rintro ⟨w₁, h⟩
    exact ⟨(), w₁, h⟩

theorem runCalls_append :
    runCalls o (cs ++ ds) w = .ok () w' ↔
      ∃ w₁, runCalls o cs w = .ok () w₁ ∧ runCalls o ds w₁ = .ok () w' := by
  induction cs generalizing w with
  | nil =>
    constructor
    · intro h
      exact ⟨w, rfl, h⟩
    · rintro ⟨w₁, h, h'⟩
      cases h
      exact h'
  | cons c cs ih =>
    rw [List.cons_append, runCalls_cons]
    simp only [ih, runCalls_cons]
    constructor
    · rintro ⟨w₁, hc, w₂, hcs, hds⟩
      exact ⟨w₂, ⟨w₁, hc, hcs⟩, hds⟩
    · rintro ⟨w₂, ⟨w₁, hc, hcs⟩, hds⟩
      exact ⟨w₁, hc, w₂, hcs, hds⟩

theorem namesValid_append : NamesValid (cs ++ ds) ↔ NamesValid cs ∧ NamesValid ds := by
  simp only [NamesValid, List.mem_append, or_imp, forall_and]

theorem namesValid_cons {c : Call} (hc : ∀ name, c ≠ .preparedKey name) :
    NamesValid (c :: cs) ↔ NamesValid cs := by
  have : ∀ name, Call.preparedKey name ≠ c := fun name => (hc name).symm
  simp [NamesValid, this]

end

/-! ### One value -/

/-- A canonical item, its text aside. -/
def Canonical (o : Options) (d : Nat) (x : Item) : Prop :=
  Sat (fun y => WellFormedNode y ∧ CanonicalNode y) o.maxDepth d x

def TextValid (o : Options) (d : Nat) (x : Item) : Prop := Sat Utf8Node o.maxDepth d x

theorem Head.short_shortest {v : Nat} (h : v < 2 ^ 64) : (Head.short v h).Shortest := rfl

section

variable {o : Options} {d : Nat}

theorem canonical_int {m : Major} (hm : m = .uint ∨ m = .nint) {v : Nat} (h : v < 2 ^ 64) :
    Canonical o d (.leaf m (.short v h)) ∧ TextValid o d (.leaf m (.short v h)) := by
  have hne : m ≠ .simple := by rcases hm with rfl | rfl <;> decide
  exact ⟨.leaf ⟨⟨by tauto, fun hs => absurd hs hne⟩, fun _ => Head.short_shortest h,
    fun hs => absurd hs hne⟩,
    .leaf trivial⟩

theorem canonical_simple {h : Head} (hsmall : h.ai = 24 → 32 ≤ h.value)
    (hfloat : 25 ≤ h.ai → PreferredFloat h.ai h.value) :
    Canonical o d (.leaf .simple h) ∧ TextValid o d (.leaf .simple h) :=
  ⟨.leaf ⟨⟨.inr (.inr rfl), fun _ => hsmall⟩, fun hs => absurd rfl hs, fun _ => hfloat⟩,
    .leaf trivial⟩

theorem canonical_str (t : Bool) {payload : Bytes} (h : payload.length < 2 ^ 64) :
    Canonical o d (.str t (.short payload.length h) payload) :=
  .str ⟨rfl, Head.short_shortest h⟩

theorem canonical_tag {t : Nat} (ht : t < 2 ^ 64) {x : Item} (hx : Canonical o d x) :
    Canonical o d (.tag (.short t ht) x) :=
  .tag ⟨trivial, Head.short_shortest ht⟩ hx

theorem intHead_eq {i : Int} (hi : Int64Range i) :
    ∃ m v, ∃ h : v < 2 ^ 64, (m = .uint ∨ m = .nint) ∧ intHead i = (Head.short v h).bytes m := by
  obtain ⟨hlo, hhi⟩ := hi
  unfold intHead
  split
  · have h : i.toNat < 2 ^ 64 := by omega
    exact ⟨.uint, i.toNat, h, .inl rfl, makeHead_eq h⟩
  · have h : (-1 - i).toNat < 2 ^ 64 := by omega
    exact ⟨.nint, (-1 - i).toNat, h, .inr rfl, makeHead_eq h⟩

/-- The preferred form of a double is a float head in its preferred width. -/
theorem preferredBytes_eq (x : Double) :
    ∃ h : Head, preferredBytes x = h.bytes .simple ∧ 25 ≤ h.ai ∧ PreferredFloat h.ai h.value ∧
      (x.isNan = false → floatOf h.ai h.value = x) := by
  cases hnan : x.isNan with
  | true =>
    have hhalf : toHalf x = some 0x7E00 := by rw [toHalf, if_pos hnan]
    refine ⟨⟨.two, 0x7E00, by decide⟩, ?_, by decide, ?_, fun h => by cases h⟩
    · rw [preferredBytes, hhalf]
      rfl
    · have hfloat : (floatOf 25 0x7E00).isNan = true := Ieee.Binary.isNan_nan _ _
      change PreferredFloat 25 0x7E00
      rw [PreferredFloat, if_pos hfloat]
      exact ⟨rfl, rfl⟩
  | false =>
    have hpreferred : ∀ ai v, floatOf ai v = x → ai = preferredAi x → PreferredFloat ai v := by
      intro ai v hfloat hai
      rw [PreferredFloat, hfloat, hnan, if_neg Bool.false_ne_true]
      exact hai
    cases hhalf : toHalf x with
    | some n =>
      obtain ⟨hfloat, hlt⟩ := fromHalf_of_toHalf hnan hhalf
      refine ⟨⟨.two, n, hlt⟩, by rw [preferredBytes, hhalf]; rfl, Nat.le_refl 25, ?_,
        fun _ => hfloat⟩
      exact hpreferred 25 n hfloat (by rw [preferredAi, hhalf]; rfl)
    | none =>
      cases hfit : fitsSingle x with
      | true =>
        have hfloat : doubleOfSingle (singleOfBits (singleOfDouble x).bits) = x := by
          rw [singleOfBits, Ieee.Binary.ofBits_bits]
          exact doubleOfSingle_of_fitsSingle hhalf hfit
        refine ⟨⟨.four, (singleOfDouble x).bits, (singleOfDouble x).bits_lt⟩, ?_, Nat.le_succ 25,
          ?_, fun _ => hfloat⟩
        · rw [preferredBytes, hhalf]
          simp only [hfit, if_true]
          rfl
        · exact hpreferred 26 _ hfloat (by rw [preferredAi, hhalf, hfit]; rfl)
      | false =>
        have hfloat : doubleOfBits x.bits = x := Ieee.Binary.ofBits_bits x
        refine ⟨⟨.eight, x.bits, x.bits_lt⟩, ?_, Nat.le_add_right 25 2, ?_, fun _ => hfloat⟩
        · rw [preferredBytes, hhalf]
          simp only [hfit, Bool.false_eq_true, if_false]
          rfl
        · exact hpreferred 27 _ hfloat (by rw [preferredAi, hhalf, hfit]; rfl)

/-- The bytes are `k` canonical items, whose text is valid if and only if `valid` holds. -/
def Wrote (o : Options) (d k : Nat) (bs : Bytes) (valid : Prop) : Prop :=
  bs.length < 2 ^ 64 → ∃ xs : List Item, xs.length = k ∧ Item.bytesList xs = bs ∧
    (∀ x ∈ xs, Canonical o d x) ∧ ((∀ x ∈ xs, TextValid o d x) ↔ valid)

theorem Wrote.one {bs : Bytes} {valid : Prop}
    (h : bs.length < 2 ^ 64 → ∃ x : Item, x.bytes = bs ∧ Canonical o d x ∧
      (TextValid o d x ↔ valid)) :
    Wrote o d 1 bs valid := by
  intro hlen
  obtain ⟨x, rfl, hx, hvalid⟩ := h hlen
  exact ⟨[x], rfl, by simp [Item.bytesList], by simpa using hx, by simpa using hvalid⟩

theorem Wrote.append {j k : Nat} {as bs : Bytes} {p q : Prop} (ha : Wrote o d j as p)
    (hb : Wrote o d k bs q) :
    Wrote o d (j + k) (as ++ bs) (p ∧ q) := by
  intro hlen
  rw [List.length_append] at hlen
  obtain ⟨xs, hxlen, rfl, hxs, hxv⟩ := ha (by omega)
  obtain ⟨ys, hylen, rfl, hys, hyv⟩ := hb (by omega)
  refine ⟨xs ++ ys, by rw [List.length_append, hxlen, hylen], ?_, ?_, ?_⟩
  · simp only [Item.bytesList_eq, List.flatMap_append]
  · exact List.forall_mem_append.2 ⟨hxs, hys⟩
  · rw [List.forall_mem_append, hxv, hyv]

end

section

variable {o : Options} {w w' : Writer}

theorem checkUtf8_eq_ok {t : Bytes} : checkUtf8 t w = .ok () w' ↔ Utf8.Valid t ∧ w = w' := by
  rw [← validateUtf8_eq_none, checkUtf8]
  cases validateUtf8 t with
  | none => simp
  | some bad => simp

theorem text_eq_ok (hutf : o.validateUtf8 = true) {t : Bytes} :
    text o t w = .ok () w' ↔ Utf8.Valid t ∧
      w' = (w.bump 1).append (makeHead .text t.length ++ t) := by
  have hrun : text o t w =
      (checkUtf8 t >>= fun _ => append (makeHead .text t.length ++ t)) (w.bump 1) := by
    rw [text, hutf]
    rfl
  rw [hrun, Run.bind_eq_ok]
  constructor
  · rintro ⟨⟨⟩, w₁, hcheck, happend⟩
    obtain ⟨hvalid, rfl⟩ := checkUtf8_eq_ok.1 hcheck
    cases happend
    exact ⟨hvalid, rfl⟩
  · rintro ⟨hvalid, rfl⟩
    exact ⟨(), w.bump 1, checkUtf8_eq_ok.2 ⟨hvalid, rfl⟩, rfl⟩

theorem wrote_head {d : Nat} {bs : Bytes} (x : Item) (hx : Canonical o d x ∧ TextValid o d x)
    (hbs : x.bytes = bs) :
    Wrote o d 1 bs True :=
  .one fun _ => ⟨x, hbs, hx.1, iff_of_true hx.2 trivial⟩

theorem wrote_int {d : Nat} {i : Int} (hi : Int64Range i) : Wrote o d 1 (intHead i) True := by
  obtain ⟨m, v, hv, hm, heq⟩ := intHead_eq hi
  exact wrote_head (.leaf m (.short v hv)) (canonical_int hm hv) heq.symm

theorem wrote_str {d : Nat} (t : Bool) {payload : Bytes} (hvalid : t = true → Utf8.Valid payload) :
    Wrote o d 1 (makeHead (strMajor t) payload.length ++ payload) True := by
  refine .one fun hlen => ?_
  rw [List.length_append] at hlen
  have hv : payload.length < 2 ^ 64 := by omega
  refine ⟨.str t (.short payload.length hv) payload, by rw [makeHead_eq hv]; rfl,
    canonical_str t hv, ?_⟩
  refine iff_of_true (.str ?_) trivial
  cases t with
  | false => trivial
  | true => exact hvalid rfl

/-- A call that writes one value counts one item and appends one canonical item. -/
theorem run_value (hfl : o.floats = .preferred) (hutf : o.validateUtf8 = true) {c : Call}
    (hc : c.IsValue) (h : c.run o w = .ok () w') (d : Nat) :
    ∃ bs, w' = (w.bump 1).append bs ∧ Wrote o d 1 bs True := by
  cases c with
  | null =>
    cases h
    exact ⟨_, rfl, wrote_head (.leaf .simple ⟨.direct, 22, by decide⟩)
      (canonical_simple (by decide) (by decide)) rfl⟩
  | boolean b =>
    cases h
    cases b with
    | false =>
      exact ⟨_, rfl, wrote_head (.leaf .simple ⟨.direct, 20, by decide⟩)
        (canonical_simple (by decide) (by decide)) rfl⟩
    | true =>
      exact ⟨_, rfl, wrote_head (.leaf .simple ⟨.direct, 21, by decide⟩)
        (canonical_simple (by decide) (by decide)) rfl⟩
  | uint u =>
    cases h
    exact ⟨_, rfl, wrote_head (.leaf .uint (.short u hc)) (canonical_int (.inl rfl) hc)
      (makeHead_eq hc).symm⟩
  | sint i =>
    cases h
    exact ⟨_, rfl, wrote_int hc⟩
  | real x =>
    obtain ⟨hd, hbytes, hai, hpreferred, -⟩ := preferredBytes_eq x
    have hrun : Cbor.real o x w = .ok () ((w.bump 1).append (preferredBytes x)) := by
      rw [Cbor.real, hfl]
      rfl
    rw [Call.run, hrun] at h
    cases h
    refine ⟨_, rfl, wrote_head (.leaf .simple hd) (canonical_simple ?_ fun _ => hpreferred)
      hbytes.symm⟩
    omega
  | negative n =>
    cases h
    exact ⟨_, rfl, wrote_head (.leaf .nint (.short n hc)) (canonical_int (.inr rfl) hc)
      (makeHead_eq hc).symm⟩
  | simple v =>
    rw [Call.run, Cbor.simple] at h
    split at h
    · cases h
    rename_i hrange
    rcases Nat.lt_or_ge v.toNat 24 with hv | hv
    · have hput : (if v.toNat < 24 then put (initialByte .simple v.toNat) else append [0xF8, v]) =
          put (initialByte .simple v.toNat) := if_pos hv
      rw [hput] at h
      cases h
      have hai : (⟨.direct, v.toNat, hv⟩ : Head).ai = v.toNat := rfl
      refine ⟨_, rfl, wrote_head (.leaf .simple ⟨.direct, v.toNat, hv⟩) (canonical_simple ?_ ?_)
        rfl⟩
      · rw [hai]
        omega
      · rw [hai]
        omega
    · have hput : (if v.toNat < 24 then put (initialByte .simple v.toNat) else append [0xF8, v]) =
          append [0xF8, v] := if_neg (not_lt.2 hv)
      rw [hput] at h
      cases h
      refine ⟨_, rfl, wrote_head (.leaf .simple ⟨.one, v.toNat, v.toNat_lt⟩)
        (canonical_simple ?_ ?_) ?_⟩
      · intro _
        show 32 ≤ v.toNat
        omega
      · intro hai
        exact absurd hai (show ¬ 25 ≤ 24 by decide)
      · have hbyte : UInt8.ofNat (v.toNat / 256 ^ 0 % 256) = v := by
          rw [pow_zero, Nat.div_one, Nat.mod_eq_of_lt v.toNat_lt, UInt8.ofNat_toNat]
        show [initialByte .simple 24, UInt8.ofNat (v.toNat / 256 ^ 0 % 256)] = [0xF8, v]
        rw [hbyte]
        rfl
  | text t =>
    obtain ⟨hvalid, rfl⟩ := (text_eq_ok hutf).1 h
    exact ⟨_, rfl, wrote_str true fun _ => hvalid⟩
  | bytes b =>
    cases h
    exact ⟨_, rfl, wrote_str false (fun ht => by cases ht)⟩
  | writeRange t data =>
    cases h
    refine ⟨makeHead .tag t ++ (makeHead .bytes data.length ++ data), Writer.append_append _ _ _,
      .one fun hlen => ?_⟩
    rw [List.length_append, List.length_append] at hlen
    have hv : data.length < 2 ^ 64 := by omega
    refine ⟨.tag (.short t hc) (.str false (.short data.length hv) data), ?_,
      canonical_tag hc (canonical_str false hv), iff_of_true (.tag trivial (.str trivial)) trivial⟩
    rw [makeHead_eq hc, makeHead_eq hv]
    rfl
  | _ => exact hc.elim

end

/-! ### Containers -/

/-- The encoded key and value of an entry. -/
def itemBytes (e : Item × Item) : Bytes × Bytes := (e.1.bytes, e.2.bytes)

/-- The entries are canonical items, whose text is valid if and only if `valid` holds. -/
def WroteEntries (o : Options) (d : Nat) (kvs : List (Bytes × Bytes)) (valid : Prop) : Prop :=
  (entryBytes kvs).length < 2 ^ 64 → ∃ es : List (Item × Item), es.map itemBytes = kvs ∧
    (∀ e ∈ es, Canonical o d e.1 ∧ Canonical o d e.2) ∧
      ((∀ e ∈ es, TextValid o d e.1 ∧ TextValid o d e.2) ↔ valid)

/-- The entries in the order of their encoded keys. -/
def sortEntries (es : List (Item × Item)) : List (Item × Item) :=
  es.insertionSort fun a b => a.1.bytes ≤ b.1.bytes

theorem sortSlices_entries (es : List (Item × Item)) :
    sortSlices ((es.map itemBytes).map sliceOf) = ((sortEntries es).map itemBytes).map sliceOf :=
  sortSlices_map itemBytes es

theorem flatMap_whole (es : List (Item × Item)) :
    ((es.map itemBytes).map sliceOf).flatMap Slice.whole = Item.bytesList (alternate es) := by
  induction es with
  | nil => rfl
  | cons e es ih =>
    rw [List.map_cons, List.map_cons, List.flatMap_cons, ih, alternate_cons, Item.bytesList,
      Item.bytesList,
      ← List.append_assoc]
    rfl

theorem entryBytes_eq (es : List (Item × Item)) :
    entryBytes (es.map itemBytes) = Item.bytesList (alternate es) := by
  rw [← flatMap_whole, entryBytes, List.flatMap_map, List.flatMap_map, List.flatMap_map]
  rfl

section

variable {o : Options} {d : Nat}

theorem WroteEntries.nil : WroteEntries o d [] True :=
  fun _ => ⟨[], rfl, by simp, by simp⟩

theorem WroteEntries.cons {kb vb : Bytes} {kvs : List (Bytes × Bytes)}
    {p q r : Prop} (hk : Wrote o d 1 kb p) (hv : Wrote o d 1 vb q) (hes : WroteEntries o d kvs r) :
    WroteEntries o d ((kb, vb) :: kvs) (p ∧ q ∧ r) := by
  intro hlen
  have hsplit : (entryBytes ((kb, vb) :: kvs)).length =
    kb.length + vb.length + (entryBytes kvs).length := by
    simp [entryBytes, Nat.add_assoc]
  obtain ⟨xs, hxlen, rfl, hxs, hxv⟩ := hk (by omega)
  obtain ⟨ys, hylen, rfl, hys, hyv⟩ := hv (by omega)
  obtain ⟨es, rfl, hces, hev⟩ := hes (by omega)
  obtain ⟨x, rfl⟩ := List.length_eq_one_iff.1 hxlen
  obtain ⟨y, rfl⟩ := List.length_eq_one_iff.1 hylen
  rw [List.forall_mem_singleton] at hxs hxv hys hyv
  refine ⟨(x, y) :: es, by simp [itemBytes, Item.bytesList],
    List.forall_mem_cons.2 ⟨⟨hxs, hys⟩, hces⟩, ?_⟩
  rw [List.forall_mem_cons, hev, hxv, hyv, and_assoc]

theorem canonical_container
    {isMap : Bool} {n : Nat} (hn : n < 2 ^ 64) {xs : List Item} (hd : d < o.maxDepth)
    (hcount : xs.length = if isMap then 2 * n else n)
    (hkeys : isMap = true → KeysAscend true none xs) (hxs : ∀ x ∈ xs, Canonical o (d + 1) x) :
    Canonical o d (.container isMap (some (.short n hn)) xs) :=
  .container ⟨hcount, Head.short_shortest hn, hkeys⟩ hd hxs

theorem textValid_container
    {isMap : Bool} {count : Option Head} {xs : List Item} (hd : d < o.maxDepth) :
    TextValid o d (.container isMap count xs) ↔ ∀ x ∈ xs, TextValid o (d + 1) x := by
  constructor
  · intro h
    cases h with
    | container _ _ hxs => exact hxs
  · exact fun hxs => .container trivial hd hxs

theorem wrote_array (hd : d < o.maxDepth) {k : Nat} {bs : Bytes} {p : Prop}
    (h : Wrote o (d + 1) k bs p) :
    Wrote o d 1 (makeHead .array k ++ bs) p := by
  refine .one fun hlen => ?_
  rw [List.length_append] at hlen
  obtain ⟨xs, rfl, rfl, hxs, hxv⟩ := h (by omega)
  have hk : xs.length < 2 ^ 64 := by
    have := Item.length_le_bytesList xs
    omega
  refine ⟨.container false (some (.short xs.length hk)) xs, ?_, ?_,
    (textValid_container hd).trans hxv⟩
  · rw [makeHead_eq hk]
    rfl
  · exact canonical_container hk hd rfl (fun hm => by cases hm) hxs

theorem wrote_map (hd : d < o.maxDepth) {kvs : List (Bytes × Bytes)}
    {p : Prop} (h : WroteEntries o (d + 1) kvs p)
    (hrepeat : hasRepeat (sortSlices (kvs.map sliceOf)) = false) :
    Wrote o d 1 (makeHead .map (sortSlices (kvs.map sliceOf)).length ++
      (sortSlices (kvs.map sliceOf)).flatMap Slice.whole) p := by
  refine .one fun hlen => ?_
  rw [List.length_append] at hlen
  have hperm : (sortSlices (kvs.map sliceOf)).Perm (kvs.map sliceOf) := List.perm_insertionSort _ _
  have hbody : ((sortSlices (kvs.map sliceOf)).flatMap Slice.whole).length =
    (entryBytes kvs).length := by
    rw [(hperm.flatMap_right Slice.whole).length_eq, List.flatMap_map]
    rfl
  obtain ⟨es, rfl, hes, hev⟩ := h (by omega)
  have hsorted := sortSlices_entries es
  have hperm' : (sortEntries es).Perm es := List.perm_insertionSort _ _
  have hpair : (sortEntries es).Pairwise fun a b => a.1.bytes < b.1.bytes := by
    have hle : (sortSlices ((es.map itemBytes).map sliceOf)).Pairwise fun a b => a.key ≤ b.key :=
      List.pairwise_insertionSort _ _
    have hlt := pairwise_of_not_repeat hle hrepeat
    rw [hsorted, List.pairwise_map, List.pairwise_map] at hlt
    exact hlt
  have hn : (sortEntries es).length < 2 ^ 64 := by
    have := Item.length_le_bytesList (alternate es)
    rw [length_alternate, ← entryBytes_eq] at this
    rw [hperm'.length_eq]
    omega
  refine ⟨.container true (some (.short _ hn)) (alternate (sortEntries es)), ?_, ?_, ?_⟩
  · rw [hsorted, flatMap_whole, List.length_map, List.length_map, makeHead_eq hn]
    rfl
  · refine canonical_container hn hd (length_alternate _)
      (fun _ => keysAscend_alternate hpair (fun p hp => nomatch hp)) ?_
    exact forall_mem_alternate.2 fun e he => hes e (hperm'.mem_iff.1 he)
  · rw [textValid_container hd, forall_mem_alternate, ← hev]
    exact forall_congr' fun e => by rw [hperm'.mem_iff]

end

/-! ### Keys -/

/-- The frame of a map after a key, with `n` items counted. -/
def Frame.withKey (f : Frame) (n : Nat) (kb : Bytes) : Frame :=
  { f with items := n, body := f.body ++ kb, entries := f.entries ++ [⟨f.body.length, (f.body ++ kb).length⟩] }

/-- The frame of a map after whole entries. -/
def Frame.withEntries (f : Frame) (n : Nat) (kvs : List (Bytes × Bytes)) : Frame :=
  { f with items := n, body := f.body ++ entryBytes kvs, entries := f.entries ++ extents f.body.length kvs }

theorem Frame.keyEnd_keyStart {f : Frame} (hf : f.buffered = true) (n : Nat) (kb : Bytes) :
    ({ f.keyStart with items := n, body := f.keyStart.body ++ kb } : Frame).keyEnd = f.withKey n kb := by
  obtain ⟨isMap, buffered, indefinite, items, body, entries⟩ := f
  obtain rfl : buffered = true := hf
  simp [keyStart, keyEnd, withKey]

theorem Frame.withKey_withEntries
    (f : Frame) (m n : Nat) (kb vb : Bytes) (kvs : List (Bytes × Bytes)) :
    ({ f.withKey m kb with items := m + 1, body := (f.withKey m kb).body ++ vb } :
      Frame).withEntries n kvs =
      f.withEntries n ((kb, vb) :: kvs) := by
  simp [withKey, withEntries, entryBytes, extents, Nat.add_assoc]

section

variable {o : Options} {w w' : Writer} {f : Frame}

/-- Between the two ends of a key its bytes are appended. -/
theorem keyEnd_run (hf : f.buffered = true) (k : Nat) (kb : Bytes) :
    keyEnd (((w.pushFrame f.keyStart).bump k).append kb) =
      .ok () (w.pushFrame (f.withKey (f.items + k) kb)) := by
  have hbuf : ({ f.keyStart with items := f.keyStart.items + k } : Frame).buffered = true := by
    simp [Frame.keyStart, hf]
  have hitems : f.keyStart.items = f.items := by simp [Frame.keyStart, hf]
  rw [Writer.pushFrame_bump, Writer.pushFrame_append_buffered _ hbuf, ← Frame.keyEnd_keyStart hf,
    hitems]
  rfl

theorem key_eq_ok (hutf : o.validateUtf8 = true) (hf : f.buffered = true) {k : Bytes} :
    key o k (w.pushFrame f) = .ok () w' ↔
      Utf8.Valid k ∧ w' = w.pushFrame (f.withKey f.items (makeHead .text k.length ++ k)) := by
  have hrun : key o k (w.pushFrame f) =
      (checkUtf8 k >>= fun _ => append (makeHead .text k.length ++ k) >>= fun _ => keyEnd)
        (w.pushFrame f.keyStart) := by
    rw [key, hutf]
    rfl
  have hend := keyEnd_run (w := w) hf 0 (makeHead .text k.length ++ k)
  rw [Writer.bump_zero, Nat.add_zero] at hend
  have hrest : (append (makeHead .text k.length ++ k) >>= fun _ => keyEnd)
    (w.pushFrame f.keyStart) =
      .ok () (w.pushFrame (f.withKey f.items (makeHead .text k.length ++ k))) := hend
  rw [hrun, Run.bind_eq_ok]
  constructor
  · rintro ⟨⟨⟩, w₁, hcheck, happend⟩
    obtain ⟨hvalid, rfl⟩ := checkUtf8_eq_ok.1 hcheck
    rw [hrest] at happend
    cases happend
    exact ⟨hvalid, rfl⟩
  · rintro ⟨hvalid, rfl⟩
    exact ⟨(), _, checkUtf8_eq_ok.2 ⟨hvalid, rfl⟩, hrest⟩

/-- A key without a check appends its bytes. -/
theorem plainKey_run (hf : f.buffered = true) (kb : Bytes) :
    (keyStart >>= fun _ => append kb >>= fun _ => keyEnd) (w.pushFrame f) =
      .ok () (w.pushFrame (f.withKey f.items kb)) := by
  have hend := keyEnd_run (w := w) hf 0 kb
  rw [Writer.bump_zero, Nat.add_zero] at hend
  exact hend

/-- A call that writes a key appends one canonical item, whose text is valid unless the key was
prepared with an invalid name. -/
theorem run_key (hutf : o.validateUtf8 = true) {c : Call} (hc : c.IsKey) (hf : f.buffered = true)
    (h : c.run o (w.pushFrame f) = .ok () w') (d : Nat) :
    ∃ kb, w' = w.pushFrame (f.withKey f.items kb) ∧ Wrote o d 1 kb (NamesValid [c]) := by
  have hvalid : (∀ name, c ≠ .preparedKey name) → (True ↔ NamesValid [c]) := by
    intro hne
    rw [namesValid_cons hne]
    simp [NamesValid]
  cases c with
  | key k =>
    obtain ⟨hk, rfl⟩ := (key_eq_ok hutf hf).1 h
    refine ⟨_, rfl, ?_⟩
    rw [← hvalid fun _ => Call.noConfusion]
    exact wrote_str true fun _ => hk
  | keyUint k =>
    have hrun : Call.run o (.keyUint k) (w.pushFrame f) = _ := plainKey_run hf (makeHead .uint k)
    rw [hrun] at h
    cases h
    refine ⟨_, rfl, ?_⟩
    rw [← hvalid fun _ => Call.noConfusion]
    exact wrote_head (.leaf .uint (.short k hc)) (canonical_int (.inl rfl) hc) (makeHead_eq hc).symm
  | keySint k =>
    have hrun : Call.run o (.keySint k) (w.pushFrame f) = _ := plainKey_run hf (intHead k)
    rw [hrun] at h
    cases h
    refine ⟨_, rfl, ?_⟩
    rw [← hvalid fun _ => Call.noConfusion]
    exact wrote_int hc
  | preparedKey name =>
    have hrun : Call.run o (.preparedKey name) (w.pushFrame f) = _ :=
      plainKey_run hf (makeHead .text name.length ++ name)
    rw [hrun] at h
    cases h
    refine ⟨_, rfl, .one fun hlen => ?_⟩
    rw [List.length_append] at hlen
    have hv : name.length < 2 ^ 64 := by omega
    refine ⟨.str true (.short name.length hv) name, by rw [makeHead_eq hv]; rfl,
      canonical_str true hv, ?_⟩
    simp only [NamesValid, List.mem_singleton, Call.preparedKey.injEq, forall_eq]
    constructor
    · intro ht
      cases ht with
      | str hp => exact hp
    · exact fun hp => .str hp
  | preparedIntKey k =>
    have hrun : Call.run o (.preparedIntKey k) (w.pushFrame f) = _ := plainKey_run hf (intHead k)
    rw [hrun] at h
    cases h
    refine ⟨_, rfl, ?_⟩
    rw [← hvalid fun _ => Call.noConfusion]
    exact wrote_int hc
  | _ => exact hc.elim

end

/-! ### The induction over the bracketing -/

/-- What a run of the sequence has done. Values are appended and counted. Entries are appended to
the frame of their map, with their extents. -/
def Spec (o : Options) : Shape → List Call → Prop
  | .values k, cs => ∀ w w' : Writer, runCalls o cs w = .ok () w' →
      ∃ bs, w' = (w.bump k).append bs ∧ Wrote o w.frames.length k bs (NamesValid cs)
  | .entries, cs =>
    ∀ (w w' : Writer) (f : Frame), f.buffered = true → runCalls o cs (w.pushFrame f) = .ok () w' →
      ∃ n kvs, w' = w.pushFrame (f.withEntries n kvs) ∧
        WroteEntries o (w.frames.length + 1) kvs (NamesValid cs)

section

variable {o : Options}

theorem Wrote.congr {d k : Nat} {bs : Bytes} {p q : Prop} (h : Wrote o d k bs p) (hpq : p ↔ q) :
    Wrote o d k bs q := by
  rwa [← propext hpq]

theorem spec_array (hdet : o.deterministic = true) {n : Option Nat} {k : Nat} {cs : List Call}
    (hn : ∀ c ∈ n, c = k) (ih : Spec o (.values k) cs) :
    Spec o (.values 1) (.beginArray n :: (cs ++ [.endArray])) := by
  intro w w' h
  have hnames : NamesValid (.beginArray n :: (cs ++ [.endArray])) ↔ NamesValid cs := by
    rw [namesValid_cons fun _ => Call.noConfusion, namesValid_append]
    simp [NamesValid]
  obtain ⟨w₁, hbegin, hrest⟩ := runCalls_cons.1 h
  obtain ⟨w₂, hcs, hend⟩ := runCalls_append.1 hrest
  obtain ⟨w₃, hclose, hnil⟩ := runCalls_cons.1 hend
  cases hnil
  have hopen : openFrame o .array n false (w.bump 1) = .ok () w₁ := hbegin
  rcases Nat.lt_or_ge w.frames.length o.maxDepth with hd | hd
  swap
  · rw [openFrame_of_le (by rwa [Writer.length_bump])] at hopen
    cases hopen
  have hd' : (w.bump 1).frames.length < o.maxDepth := by rwa [Writer.length_bump]
  cases n with
  | some n =>
    obtain rfl := hn n rfl
    rw [openFrame_sized hdet hd'] at hopen
    cases hopen
    obtain ⟨bs, rfl, hbs⟩ := ih _ _ hcs
    rw [Writer.pushFrame_bump, Writer.pushFrame_append_unbuffered _ rfl,
      Writer.append_append] at hclose
    have hdone := close_sized (w := (w.bump 1).append (makeHead .array n ++ bs))
      (f := { isMap := false, items := 0 + n }) rfl rfl
    rw [show Call.run o .endArray = close from rfl, hdone] at hclose
    cases hclose
    refine ⟨_, rfl, ?_⟩
    rw [Writer.length_pushFrame, Writer.length_append, Writer.length_bump] at hbs
    exact (wrote_array hd hbs).congr hnames.symm
  | none =>
    rw [openFrame_buffered hdet hd' (.inr rfl)] at hopen
    cases hopen
    obtain ⟨bs, rfl, hbs⟩ := ih _ _ hcs
    rw [Writer.pushFrame_values _ rfl] at hclose
    have hdone := close_array (w := w.bump 1)
      (f := { isMap := false, buffered := true, items := 0 + k, body := [] ++ bs }) rfl rfl rfl
    rw [show Call.run o .endArray = close from rfl, hdone] at hclose
    cases hclose
    refine ⟨_, rfl, ?_⟩
    rw [Writer.length_pushFrame, Writer.length_bump] at hbs
    simp only [Nat.zero_add, List.nil_append]
    exact (wrote_array hd hbs).congr hnames.symm

theorem spec_map (hdet : o.deterministic = true) {n : Option Nat} {cs : List Call}
    (ih : Spec o .entries cs) :
    Spec o (.values 1) (.beginMap n :: (cs ++ [.endMap])) := by
  intro w w' h
  have hnames : NamesValid (.beginMap n :: (cs ++ [.endMap])) ↔ NamesValid cs := by
    rw [namesValid_cons fun _ => Call.noConfusion, namesValid_append]
    simp [NamesValid]
  obtain ⟨w₁, hbegin, hrest⟩ := runCalls_cons.1 h
  obtain ⟨w₂, hcs, hend⟩ := runCalls_append.1 hrest
  obtain ⟨w₃, hclose, hnil⟩ := runCalls_cons.1 hend
  cases hnil
  have hopen : openFrame o .map n true (w.bump 1) = .ok () w₁ := hbegin
  rcases Nat.lt_or_ge w.frames.length o.maxDepth with hd | hd
  swap
  · rw [openFrame_of_le (by rwa [Writer.length_bump])] at hopen
    cases hopen
  have hd' : (w.bump 1).frames.length < o.maxDepth := by rwa [Writer.length_bump]
  rw [openFrame_buffered hdet hd' (.inl rfl)] at hopen
  cases hopen
  obtain ⟨items, kvs, rfl, hkvs⟩ := ih _ _ _ rfl hcs
  have hslices : slices ([] ++ entryBytes kvs) ([] ++ extents 0 kvs) = kvs.map sliceOf :=
    slices_extents [] kvs
  have hdone := close_map (w := w.bump 1)
    (f := Frame.withEntries { isMap := true, buffered := true } items kvs) rfl rfl rfl
  simp only [Frame.withEntries, List.length_nil, hslices] at hdone
  rw [show Call.run o .endMap = close from rfl] at hclose
  simp only [Frame.withEntries, List.length_nil] at hclose
  rw [hdone] at hclose
  split at hclose
  · cases hclose
  rename_i hrepeat
  cases hclose
  refine ⟨_, rfl, ?_⟩
  rw [Writer.length_bump] at hkvs
  exact (wrote_map hd hkvs (Bool.not_eq_true _ ▸ hrepeat)).congr hnames.symm

theorem Denotes.spec (hdet : o.deterministic = true) (hfl : o.floats = .preferred)
    (hutf : o.validateUtf8 = true) {shape : Shape} {cs : List Call} (h : Denotes shape cs) :
    Spec o shape cs := by
  induction h with
  | noValue =>
    intro w w' h
    cases h
    exact ⟨[], by simp, fun _ => ⟨[], rfl, rfl, by simp, by simp [NamesValid]⟩⟩
  | @value c hc =>
    intro w w' h
    obtain ⟨w₁, hrun, hnil⟩ := runCalls_cons.1 h
    cases hnil
    obtain ⟨bs, rfl, hbs⟩ := run_value hfl hutf hc hrun w.frames.length
    refine ⟨bs, rfl, hbs.congr ?_⟩
    rw [namesValid_cons (by rintro name rfl; exact hc)]
    simp [NamesValid]
  | @tag t cs ht hcs ih =>
    intro w w' h
    obtain ⟨w₁, hrun, hrest⟩ := runCalls_cons.1 h
    cases hrun
    obtain ⟨bs, rfl, hbs⟩ := ih _ _ hrest
    refine ⟨makeHead .tag t ++ bs, by rw [Writer.append_bump, Writer.append_append], ?_⟩
    rw [Writer.length_append] at hbs
    refine .one fun hlen => ?_
    rw [List.length_append] at hlen
    obtain ⟨xs, hxlen, rfl, hxs, hxv⟩ := hbs (by omega)
    obtain ⟨x, rfl⟩ := List.length_eq_one_iff.1 hxlen
    rw [List.forall_mem_singleton] at hxs hxv
    refine ⟨.tag (.short t ht) x, ?_, canonical_tag ht hxs, ?_⟩
    · rw [makeHead_eq ht]
      simp [Item.bytes, Item.bytesList]
    · rw [namesValid_cons fun _ => Call.noConfusion, ← hxv]
      constructor
      · intro htag
        cases htag with
        | tag _ hx => exact hx
      · exact fun hx => .tag trivial hx
  | array hn _ ih => exact spec_array hdet hn ih
  | map _ ih => exact spec_map hdet ih
  | append _ _ ihcs ihds =>
    intro w w' h
    obtain ⟨w₁, hcs, hds⟩ := runCalls_append.1 h
    obtain ⟨as, rfl, has⟩ := ihcs _ _ hcs
    obtain ⟨bs, rfl, hbs⟩ := ihds _ _ hds
    rw [Writer.length_append, Writer.length_bump] at hbs
    refine ⟨as ++ bs, ?_, (has.append hbs).congr namesValid_append.symm⟩
    rw [Writer.append_bump, Writer.bump_bump, Writer.append_append]
  | noEntry =>
    intro w w' f hf h
    cases h
    refine ⟨f.items, [], by simp [Frame.withEntries, entryBytes, extents], ?_⟩
    have : NamesValid [] ↔ True := by simp [NamesValid]
    rw [this]
    exact .nil
  | @entry c vs cs hc hvs hcs ihv ih =>
    intro w w' f hf h
    obtain ⟨w₁, hkey, hrest⟩ := runCalls_cons.1 h
    obtain ⟨w₂, hval, hcs⟩ := runCalls_append.1 hrest
    obtain ⟨kb, rfl, hkb⟩ := run_key hutf hc hf hkey (w.frames.length + 1)
    obtain ⟨vb, rfl, hvb⟩ := ihv _ _ hval
    rw [Writer.pushFrame_values w (f := f.withKey f.items kb) hf] at hcs
    obtain ⟨n, kvs, rfl, hkvs⟩ := ih w w'
      { f.withKey f.items kb with items := f.items + 1, body := (f.withKey f.items kb).body ++ vb }
        hf hcs
    refine ⟨n, (kb, vb) :: kvs, ?_, ?_⟩
    · rw [← Frame.withKey_withEntries f f.items]
    · have hnames : NamesValid (c :: (vs ++ cs)) ↔
        NamesValid [c] ∧ NamesValid vs ∧ NamesValid cs := by
        rw [← List.singleton_append, namesValid_append, namesValid_append]
      rw [hnames]
      exact .cons hkb hvb hkvs
  | @keyEntry ks vs cs hks hvs hcs ihk ihv ih =>
    intro w w' f hf h
    obtain ⟨w₁, hstart, hrest⟩ := runCalls_cons.1 h
    obtain ⟨w₂, hkey, hrest⟩ := runCalls_append.1 hrest
    obtain ⟨w₃, hend, hrest⟩ := runCalls_cons.1 hrest
    obtain ⟨w₄, hval, hcs⟩ := runCalls_append.1 hrest
    have hstart' : Call.run o .beginKey (w.pushFrame f) = .ok () (w.pushFrame f.keyStart) := rfl
    rw [hstart'] at hstart
    cases hstart
    obtain ⟨kb, rfl, hkb⟩ := ihk _ _ hkey
    have hend' : Call.run o .endKey (((w.pushFrame f.keyStart).bump 1).append kb) = _ :=
      keyEnd_run hf 1 kb
    rw [hend'] at hend
    cases hend
    obtain ⟨vb, rfl, hvb⟩ := ihv _ _ hval
    rw [Writer.pushFrame_values w (f := f.withKey (f.items + 1) kb) hf] at hcs
    obtain ⟨n, kvs, rfl, hkvs⟩ := ih w w'
      { f.withKey (f.items + 1) kb with
        items := f.items + 1 + 1, body := (f.withKey (f.items + 1) kb).body ++ vb } hf hcs
    refine ⟨n, (kb, vb) :: kvs, ?_, ?_⟩
    · rw [← Frame.withKey_withEntries f (f.items + 1)]
    · have hnames : NamesValid (.beginKey :: (ks ++ .endKey :: (vs ++ cs))) ↔
          NamesValid ks ∧ NamesValid vs ∧ NamesValid cs := by
        rw [namesValid_cons fun _ => Call.noConfusion, namesValid_append,
          namesValid_cons fun _ => Call.noConfusion, namesValid_append]
      rw [hnames]
      exact .cons hkb hvb hkvs

end

/-! ### The writer's output -/

/-- A canonical item within the default limits, its text valid. -/
def Strict (d : Nat) (x : Item) : Prop :=
  Sat (fun y => WellFormedNode y ∧ Utf8Node y ∧ CanonicalNode y) ({} : Options).maxDepth d x

/-- The bytes appended to `pre` are one canonical item, and the strict validator accepts it. -/
def WritesItem (pre : Bytes) (w : Writer) : Prop :=
  ∃ x : Item, Strict 0 x ∧ w.out = pre ++ x.bytes ∧
    skipValue ({} : Options).strict w.out { pos := pre.length } = .ok () { pos := w.out.length }

theorem Strict.accepts {d : Nat} {x : Item} (hx : Strict d x) (hlen : x.bytes.length < 2 ^ 64) :
    Accepts ({} : Options).strict d x := by
  have hwf : WellFormed {} d x := Sat.imp hx fun y hy => ⟨hy.1, fun _ => hy.2.1⟩
  exact Sat.imp (Sat.and (hwf.lenient hlen) hx) fun y hy => ⟨hy.1.1.1, hy.1.1.2, fun _ => hy.2.2.2⟩

theorem strict_iff {d : Nat} {x : Item} : Strict d x ↔ Canonical {} d x ∧ TextValid {} d x := by
  constructor
  · exact fun hx => ⟨Sat.imp hx fun y hy => ⟨hy.1, hy.2.2⟩, Sat.imp hx fun y hy => hy.2.1⟩
  · exact fun hx => Sat.imp (Sat.and hx.1 hx.2) fun y hy => ⟨hy.1.1, hy.2, hy.1.2⟩

/-- Canonical items with the same bytes are the same. -/
theorem Canonical.eq_of_bytes
    {o : Options} {d d' : Nat} {x y : Item} (hx : Canonical o d x) (hy : Canonical o d' y)
    (heq : x.bytes = y.bytes) (hlen : x.bytes.length < 2 ^ 64) : x = y := by
  have lax : ∀ {d : Nat} {z : Item}, Canonical o d z → z.bytes.length < 2 ^ 64 →
    Sat LaxNode o.maxDepth d z := by
    intro d z hz hlen
    have hwf : WellFormed { o with validateUtf8 := false } d z :=
      Sat.imp hz fun y hy => ⟨hy.1, fun h => by cases h⟩
    exact (hwf.lenient hlen).imp fun y hy => hy.1.1
  refine ((lax hx hlen).unambiguous y o.maxDepth d' [] [] (lax hy ?_) ?_).1
  · rwa [← heq]
  · rw [heq]

/-- A well-bracketed sequence on the default writer that does not throw writes one canonical item
exactly if the names of its prepared keys are valid text. -/
theorem writesItem_iff {cs : List Call} (hcs : Denotes (.values 1) cs) {pre : Bytes} {w : Writer}
    (hrun : runCalls {} cs { out := pre } = .ok () w) (hlen : w.out.length < 2 ^ 64) :
    WritesItem pre w ↔ NamesValid cs := by
  obtain ⟨bs, rfl, hbs⟩ := hcs.spec (o := {}) rfl rfl rfl _ _ hrun
  have hout : (((⟨pre, []⟩ : Writer).bump 1).append bs).out = pre ++ bs := rfl
  rw [hout, List.length_append] at hlen
  obtain ⟨xs, hxlen, rfl, hxs, hxv⟩ := hbs (by omega)
  obtain ⟨x, rfl⟩ := List.length_eq_one_iff.1 hxlen
  rw [List.forall_mem_singleton] at hxs hxv
  have hbytes : Item.bytesList [x] = x.bytes := by simp [Item.bytesList]
  rw [hbytes] at hout hlen ⊢
  rw [← hxv]
  constructor
  · rintro ⟨y, hy, heq, -⟩
    rw [hout] at heq
    obtain ⟨hcy, hty⟩ := strict_iff.1 hy
    obtain rfl := hxs.eq_of_bytes hcy (List.append_cancel_left heq) (by omega)
    exact hty
  · intro ht
    have hx : Strict 0 x := strict_iff.2 ⟨hxs, ht⟩
    refine ⟨x, hx, hout, ?_⟩
    refine skipValue_ok_iff.2 ⟨x, [], hx.accepts (by omega), ?_, ?_⟩
    · rw [hout, List.drop_left, List.append_nil]
    · rw [hout, List.length_append]
      rfl

theorem writesItem_iff_witness :
    WritesItem [] { out := [0xA2, 0x01, 0xF6, 0x61, 0x61, 0x80] } ↔
      NamesValid [.beginMap none, .preparedKey [0x61], .beginArray none, .endArray, .beginKey,
        .uint 1, .endKey,
        .null, .endMap] := by
  have hkey : (Call.preparedKey [0x61]).IsKey := trivial
  have harray : Denotes (.values 1) [.beginArray none, .endArray] :=
    .array (fun c hc => by cases hc) .noValue
  have hone : Denotes (.values 1) [.uint 1] := .value (show 1 < 2 ^ 64 by decide)
  have hnull : Denotes (.values 1) [.null] := .value trivial
  exact writesItem_iff (.map (.entry hkey harray (.keyEntry hone hnull .noEntry))) (by rfl)
    (by decide)

/-- A prepared key whose name is the byte `ff` is written as it is. -/
theorem writesItem_not_prepared :
    Denotes (.values 1) [.beginMap none, .preparedKey [0xFF], .null, .endMap] ∧
      runCalls {} [.beginMap none, .preparedKey [0xFF], .null, .endMap] {} =
        .ok () { out := [0xA1, 0x61, 0xFF, 0xF6] } ∧
      ¬ WritesItem [] { out := [0xA1, 0x61, 0xFF, 0xF6] } := by
  have hkey : (Call.preparedKey [0xFF]).IsKey := trivial
  have hnull : Denotes (.values 1) [.null] := .value trivial
  refine ⟨.map (.entry hkey hnull .noEntry), by rfl, ?_⟩
  rintro ⟨x, -, -, hskip⟩
  have hrejects : skipValue ({} : Options).strict [0xA1, 0x61, 0xFF, 0xF6] {} ≠ .ok
    () { pos := 4 } := by
    intro h
    cases h
  exact hrejects hskip

end VCodec.Cbor
