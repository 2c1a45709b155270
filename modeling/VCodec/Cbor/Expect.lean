import VCodec.Cbor.Skip

/-!
# Failing without consuming

The `expect_*` operations are to fail without consuming, so that a codec can try another one on the
same item. `Takes` and `Leaves` say, from the bytes behind the ignored tags, what an operation
accepts and what it refuses where it finds it. `undisturbed_iff` is the exact condition for a
failure to leave position and depth alone.
-/

namespace VCodec.Cbor

variable {o : Options} {inp : Bytes} {s t : State}

/-! ### The head behind the ignored tags -/

def tagBytes (ts : List Head) : Bytes := ts.flatMap fun t => t.bytes .tag

/-- The heads that the operations go on with. -/
def Admitted (o : Options) (h : ParsedHead) : Prop :=
  h.length ≠ 0 ∧ h.isBreak = false ∧ h.reserved = false ∧ h.mt ≠ .tag ∧
    ¬ (h.mt = .simple ∧ h.ai = 24 ∧ h.value < 32) ∧
    (o.requireDeterministic = true → h.indefinite = false ∧ (h.shortest = true ∨ h.mt = .simple))

/-- The item at `p` starts with the tags `ts`, which are ignored, and `r` starts with its head. -/
structure HeadAt (o : Options) (inp : Bytes) (p : Nat) (ts : List Head) (r : Bytes) : Prop where
  bytes : inp.drop p = tagBytes ts ++ r
  ignored : ts ≠ [] → o.ignoreUnknownTags = true
  admitted : Admitted o (parseHead r 0)

theorem parseHead_drop (inp : Bytes) (p : Nat) : parseHead inp p = parseHead (inp.drop p) 0 := by
  rw [parseHead, parseHead, List.drop_zero]

theorem checkHeadDeterministic_eq_none {h : ParsedHead} {p : Nat} :
    whenStrict o (checkHeadDeterministic h p) = none ↔
      (o.requireDeterministic = true → h.indefinite = false ∧
        (h.shortest = true ∨ h.mt = .simple)) := by
  rw [whenStrict, checkHeadDeterministic]
  cases o.requireDeterministic with
  | false => simp
  | true =>
    cases h.indefinite with
    | true => simp
    | false =>
      cases h.shortest with
      | true => simp
      | false => simp

/-- A head that `scanHead` stops at without an error is an admitted one, and conversely. -/
theorem scanHead_stop {expected : Bytes} {fuel p q : Nat} {h : ParsedHead} (hp : p < inp.length)
    (htag : (parseHead inp p).mt ≠ .tag) :
    scanHead o inp expected (fuel + 1) p = .ok (q, h) ↔
      q = p ∧ h = parseHead inp p ∧ Admitted o (parseHead inp p) := by
  rw [scanHead, if_neg (not_le.2 hp)]
  generalize parseHead inp p = k at htag
  dsimp only
  split
  · rename_i hlen
    simp [Admitted, hlen]
  rename_i hlen
  split
  · rename_i hbreak
    simp [Admitted, hbreak]
  rename_i hbreak
  split
  · rename_i hres
    simp [Admitted, hres]
  rename_i hres
  split
  · rename_i hsimple
    simp only [reduceCtorEq, false_iff, not_and]
    exact fun _ _ hadm => hadm.2.2.2.2.1 hsimple
  rename_i hsimple
  cases hcheck : whenStrict o (checkHeadDeterministic k p) with
  | some e =>
    simp only [reduceCtorEq, false_iff, not_and]
    intro _ _ hadm
    rw [checkHeadDeterministic_eq_none.2 hadm.2.2.2.2.2] at hcheck
    cases hcheck
  | none =>
    have hadm : Admitted o k := ⟨hlen, by simpa using hbreak, by simpa using hres, htag, hsimple,
      checkHeadDeterministic_eq_none.1 hcheck⟩
    simp only [Except.ok.injEq, Prod.mk.injEq]
    constructor
    · rintro ⟨rfl, rfl⟩
      exact ⟨rfl, rfl, hadm⟩
    · rintro ⟨rfl, rfl, -⟩
      exact ⟨rfl, rfl⟩

theorem scanHead_tags {expected : Bytes} {fuel p : Nat} {k : Head} {r : Bytes}
    (hin : inp.drop p = k.bytes .tag ++ r) (hignore : o.ignoreUnknownTags = true) :
    scanHead o inp expected (fuel + 1) p =
      scanHead o inp expected fuel (p + (k.bytes .tag).length) := by
  have hlen := length_drop hin
  rw [List.length_append, k.bytes_length] at hlen
  rw [scanHead, if_neg (by omega), parseHead_head hin, k.bytes_length]
  simp only [Head.parsed, hignore, if_true, Bool.false_eq_true, if_false]
  rw [if_neg (by omega)]

/-- A tag is ignored, or the scan ends at it. -/
theorem scanHead_tag_ok {expected : Bytes} {fuel p q : Nat} {h : ParsedHead}
    (htag : (parseHead inp p).mt = .tag)
    (hrun : scanHead o inp expected (fuel + 1) p = .ok (q, h)) :
    o.ignoreUnknownTags = true ∧ ∃ (k : Head) (r : Bytes), inp.drop p = k.bytes .tag ++ r ∧
      scanHead o inp expected fuel (p + (k.bytes .tag).length) = .ok (q, h) := by
  have hview := parseHead_view inp p
  have hrun' := hrun
  rw [scanHead] at hrun
  generalize hk : parseHead inp p = k at htag hview hrun
  generalize hd : inp.drop p = bs at hview
  by_cases hp : inp.length ≤ p
  · rw [if_pos hp] at hrun
    cases hrun
  rw [if_neg hp] at hrun
  dsimp only at hrun
  cases hview with
  | truncated hz =>
    rw [if_pos hz] at hrun
    cases hrun
  | brk r => cases htag
  | reserved m hlo hhi r => cases hrun
  | reservedIndefinite hm r => cases hrun
  | indefinite hm r =>
    obtain rfl | rfl | rfl | rfl := hm
    all_goals cases htag
  | head m hd' r =>
    obtain rfl : m = .tag := htag
    cases hignore : o.ignoreUnknownTags with
    | true => exact ⟨rfl, hd', r, rfl, by rw [← scanHead_tags hd hignore, hrun']⟩
    | false =>
      rw [hignore] at hrun
      rw [if_neg (show ¬ (hd'.parsed .tag).length = 0 by simp [Head.parsed])] at hrun
      cases hrun

theorem scanHead_eq_ok {expected : Bytes} {fuel p q : Nat} {h : ParsedHead}
    (hfuel : inp.length - p ≤ fuel) :
    scanHead o inp expected fuel p = .ok (q, h) ↔
      ∃ ts r, HeadAt o inp p ts r ∧ q = p + (tagBytes ts).length ∧ h = parseHead r 0 := by
  constructor
  · intro hrun
    induction fuel generalizing p with
    | zero => cases hrun
    | succ fuel ih =>
      by_cases hp : inp.length ≤ p
      · rw [scanHead, if_pos hp] at hrun
        cases hrun
      by_cases htag : (parseHead inp p).mt = .tag
      · obtain ⟨hignore, k, r, hin, hrun⟩ := scanHead_tag_ok htag hrun
        have hpos := k.bytes_length .tag
        obtain ⟨ts, r', hat, rfl, rfl⟩ := ih (by omega) hrun
        refine ⟨k :: ts, r', ⟨?_, fun _ => hignore, hat.admitted⟩, ?_, rfl⟩
        · rw [hin, ← drop_add hin, hat.bytes, tagBytes, tagBytes, List.flatMap_cons,
            List.append_assoc]
        · rw [tagBytes, tagBytes, List.flatMap_cons, List.length_append, Nat.add_assoc]
      · obtain ⟨rfl, rfl, hadm⟩ := (scanHead_stop (not_le.1 hp) htag).1 hrun
        rw [parseHead_drop] at hadm
        exact ⟨[], inp.drop q, ⟨rfl, fun h => absurd rfl h, hadm⟩, rfl, parseHead_drop inp q⟩
  · rintro ⟨ts, r, ⟨hin, hignore, hadm⟩, rfl, rfl⟩
    induction ts generalizing p fuel with
    | nil =>
      obtain rfl : inp.drop p = r := hin
      rw [← parseHead_drop] at hadm ⊢
      have hp : p < inp.length := by
        by_contra hp
        refine hadm.1 ?_
        rw [parseHead, List.drop_eq_nil_of_le (not_lt.1 hp)]
      obtain ⟨fuel, rfl⟩ : ∃ f, fuel = f + 1 := ⟨fuel - 1, by omega⟩
      exact (scanHead_stop hp hadm.2.2.2.1).2 ⟨rfl, rfl, hadm⟩
    | cons k ts ih =>
      have hon := hignore (List.cons_ne_nil _ _)
      rw [tagBytes, List.flatMap_cons, List.append_assoc] at hin
      have hlen := length_drop hin
      have hpos := k.bytes_length .tag
      rw [List.length_append] at hlen
      obtain ⟨fuel, rfl⟩ : ∃ f, fuel = f + 1 := ⟨fuel - 1, by omega⟩
      rw [scanHead_tags hin hon, ih (by omega) (drop_add hin) fun _ => hon, tagBytes, tagBytes,
        List.flatMap_cons,
        List.length_append, Nat.add_assoc]

theorem HeadAt.rest {p : Nat} {ts : List Head} {r : Bytes} (hat : HeadAt o inp p ts r) :
    inp.drop (p + (tagBytes ts).length) = r := drop_add hat.bytes

/-- The reader at the item's head. -/
def State.behind (s : State) (ts : List Head) : State :=
  { s with pos := s.pos + (tagBytes ts).length, start := s.pos + (tagBytes ts).length }

theorem HeadAt.itemHead {ts : List Head} {r : Bytes} (hat : HeadAt o inp s.pos ts r)
    (expected : Bytes) :
    itemHead o inp expected s = .ok (parseHead r 0) (s.behind ts) := by
  rw [Cbor.itemHead, (scanHead_eq_ok le_rfl).2 ⟨ts, r, hat, rfl, rfl⟩]
  rfl

theorem length_tagBytes {ts : List Head} (h : (tagBytes ts).length = 0) : ts = [] := by
  cases ts with
  | nil => rfl
  | cons t ts =>
    rw [tagBytes, List.flatMap_cons, List.length_append, t.bytes_length] at h
    omega

/-! ### Failing in place -/

/-- A failure leaves position and depth as they were. -/
def Undisturbed {α : Type} (m : M α) (s : State) : Prop :=
  ∀ e t, m s = .error e t → t.pos = s.pos ∧ t.depth = s.depth

/-- What ran from `s` returns if `takes` and otherwise fails, at the same depth and not before `s`.
It fails where `s` stands exactly if `leaves`. -/
def Decides {α : Type} (x : EStateM.Result Error State α) (s : State) (takes leaves : Prop) :
    Prop :=
  match x with
  | .ok _ _ => takes
  | .error _ t => ¬ takes ∧ t.depth = s.depth ∧ s.pos ≤ t.pos ∧ (t.pos = s.pos ↔ leaves)

theorem Decides.ite {α : Type} {c : Prop} [Decidable c] {m n : M α} {takes leaves : Prop}
    (hm : c → Decides (m s) s takes leaves) (hn : ¬ c → Decides (n s) s takes leaves) :
    Decides ((if c then m else n) s) s takes leaves := by
  split
  · rename_i h
    exact hm h
  · rename_i h
    exact hn h

theorem Decides.refused {α : Type} {e : Error} {takes leaves : Prop} (ht : ¬ takes) (hl : leaves) :
    Decides (.error e s : EStateM.Result Error State α) s takes leaves :=
  ⟨ht, rfl, le_rfl, iff_of_true rfl hl⟩

/-- An operation on an item is undisturbed if it takes what stands behind the ignored tags, or
leaves it and there are none. -/
theorem undisturbed_bind_iff
    {α : Type} {m : ParsedHead → M α} {takes leaves : Bytes → Prop} (expected : Bytes)
    (hm : ∀ t r, inp.drop t.pos = r → t.start = t.pos → t.depth = s.depth →
      Admitted o (parseHead r 0) →
      Decides (m (parseHead r 0) t) t (takes r) (leaves r)) :
    Undisturbed (itemHead o inp expected >>= m) s ↔
      ∀ ts r, HeadAt o inp s.pos ts r → takes r ∨ (ts = [] ∧ leaves r) := by
  constructor
  · intro hun ts r hat
    have hdec := hm (s.behind ts) r hat.rest rfl rfl hat.admitted
    have hrun := Run.bind_of_ok (hat.itemHead expected) m
    cases hx : m (parseHead r 0) (s.behind ts) with
    | ok a t =>
      rw [hx] at hdec
      exact .inl hdec
    | error e t =>
      rw [hx] at hdec hrun
      obtain ⟨-, -, hle, hleaves⟩ := hdec
      dsimp only [State.behind] at hle hleaves
      have hpos := (hun e t hrun).1
      exact .inr ⟨length_tagBytes (by omega), hleaves.1 (by omega)⟩
  · intro hall e t hrun
    rcases Run.bind_eq_error.1 hrun with hhead | ⟨h, u, hhead, hrest⟩
    · rw [itemHead] at hhead
      split at hhead
      · cases hhead
      · cases hhead
        exact ⟨rfl, rfl⟩
    rw [itemHead] at hhead
    split at hhead
    · rename_i p h' hscan
      cases hhead
      obtain ⟨ts, r, hat, rfl, rfl⟩ := (scanHead_eq_ok le_rfl).1 hscan
      have hdec := hm (s.behind ts) r hat.rest rfl rfl hat.admitted
      change m (parseHead r 0) (s.behind ts) = .error e t at hrest
      rw [hrest] at hdec
      obtain ⟨htakes, hdepth, -, hleaves⟩ := hdec
      obtain ⟨rfl, hl⟩ := (hall ts r hat).resolve_left htakes
      exact ⟨hleaves.2 hl, hdepth⟩
    · cases hhead

/-! ### Strings -/

def Item.IsString (t : Bool) : Item → Prop
  | .str t' _ _ => t' = t
  | .chunked t' _ => t' = t
  | _ => False

/-- A string of the major type stands in front, complete and, for text, valid if that is checked. -/
def StringAt (o : Options) (t : Bool) (r : Bytes) : Prop :=
  ∃ x r', r = Item.bytes x ++ r' ∧ x.IsString t ∧ LaxNode x ∧ (o.validateUtf8 = true → Utf8Node x)

/-- The head in front is of another major type, or of a string longer than what is left. -/
def NoString (t : Bool) (h : ParsedHead) (r : Bytes) : Prop :=
  h.mt ≠ strMajor t ∨ (h.indefinite = false ∧ r.length < h.length + h.value)

theorem stringAt_definite {t : Bool} {h : Head} {r : Bytes} :
    StringAt o t (h.bytes (strMajor t) ++ r) ↔
      h.value ≤ r.length ∧ (o.validateUtf8 = true → t = true → Utf8.Valid (r.take h.value)) := by
  constructor
  · rintro ⟨x, r', heq, hx, hlax, hutf⟩
    cases x with
    | str t' h' payload =>
      obtain rfl : t' = t := hx
      rw [Item.bytes, List.append_assoc] at heq
      obtain ⟨-, rfl, rfl⟩ := Head.bytes_append_inj heq
      rw [LaxNode] at hlax
      refine ⟨by rw [List.length_append]; omega, ?_⟩
      rintro hv rfl
      rw [← hlax, List.take_left]
      exact hutf hv
    | chunked t' cs =>
      rw [Item.bytes, List.cons_append] at heq
      exact absurd heq Head.bytes_ne_indefinite
    | leaf m h' => exact hx.elim
    | container isMap count xs => exact hx.elim
    | tag h' x => exact hx.elim
  · rintro ⟨hle, hutf⟩
    refine ⟨.str t h (r.take h.value), r.drop h.value, ?_, rfl, ?_, fun hv => ?_⟩
    · rw [Item.bytes, List.append_assoc, List.take_append_drop]
    · rw [LaxNode, List.length_take, Nat.min_eq_left hle]
    · cases t with
      | false => trivial
      | true => exact hutf hv rfl

theorem stringAt_indefinite {t : Bool} {r : Bytes} :
    StringAt o t (initialByte (strMajor t) 31 :: r) ↔
      ∃ (cs : List Chunk) (r' : Bytes), (∀ c ∈ cs, ChunkOk o t c) ∧
        initialByte (strMajor t) 31 :: r = (Item.chunked t cs).bytes ++ r' := by
  constructor
  · rintro ⟨x, r', heq, hx, hlax, hutf⟩
    cases x with
    | str t' h' payload =>
      rw [Item.bytes, List.append_assoc] at heq
      exact absurd heq.symm Head.bytes_ne_indefinite
    | chunked t' cs =>
      obtain rfl : t' = t := hx
      exact ⟨cs, r', chunkOk_iff.2 ⟨hlax, hutf⟩, heq⟩
    | leaf m h' => exact hx.elim
    | container isMap count xs => exact hx.elim
    | tag h' x => exact hx.elim
  · rintro ⟨cs, r', hcs, heq⟩
    obtain ⟨hlax, hutf⟩ := chunkOk_iff.1 hcs
    exact ⟨.chunked t cs, r', heq, rfl, hlax, hutf⟩

theorem StringAt.major {t : Bool} {r : Bytes} (hat : StringAt o t r) :
    (parseHead r 0).mt = strMajor t := by
  obtain ⟨x, r', rfl, hx, -, -⟩ := hat
  cases x with
  | str t' h payload =>
    obtain rfl : t' = t := hx
    rw [parseHead_head (by rw [List.drop_zero, Item.bytes, List.append_assoc])]
    rfl
  | chunked t' cs =>
    obtain rfl : t' = t := hx
    rw [parseHead_indefinite (strMajor_ne_simple t')
      (by rw [List.drop_zero, Item.bytes, List.cons_append])]
  | leaf m h => exact hx.elim
  | container isMap count xs => exact hx.elim
  | tag h x => exact hx.elim

theorem readChunks_error {m : Major} {fuel : Nat} {scratch : Bytes} {e : Error}
    (h : readChunks o inp m fuel scratch s = .error e t) : t.depth = s.depth ∧ s.pos ≤ t.pos := by
  induction fuel generalizing scratch s with
  | zero =>
    cases h
    exact ⟨rfl, le_rfl⟩
  | succ fuel ih =>
    simp only [readChunks] at h
    split at h
    · cases h
      exact ⟨rfl, le_rfl⟩
    split at h
    · cases h
    split at h
    · cases h
      exact ⟨rfl, le_rfl⟩
    split at h
    · cases h
      exact ⟨rfl, le_rfl⟩
    split at h
    · cases h
      exact ⟨rfl, le_rfl⟩
    split at h
    · cases h
      exact ⟨rfl, le_rfl⟩
    · obtain ⟨hdepth, hpos⟩ := ih h
      rw [State.advance_pos] at hpos
      exact ⟨hdepth, by omega⟩

/-- A cut definite string is refused at its head. -/
theorem readString_cut {m : Major} {h : Head} {r : Bytes} (hin : inp.drop s.pos = h.bytes m ++ r)
    (hlt : r.length < h.value) :
    readString o inp (h.parsed m) m s = .error (stringBytesError s.pos (h.parsed m)) s := by
  have hlen := length_drop hin
  rw [List.length_append, h.bytes_length] at hlen
  rw [readString, if_pos (show ¬ (h.parsed m).indefinite = true from Bool.false_ne_true), if_pos]
  simp only [Head.parsed]
  omega

/-- Behind the head of a chunked string every failure has consumed. -/
theorem readString_chunks_error
    {m : Major} {h : ParsedHead} {e : Error} (hind : h.indefinite = true) (hlen : h.length = 1)
    (hlax : o.requireDeterministic = false) (hrun : readString o inp h m s = .error e t) :
    t.depth = s.depth ∧ s.pos < t.pos := by
  simp only [readString, hind, hlax, hlen, not_true_eq_false, Bool.false_eq_true, if_false] at hrun
  split at hrun
  · cases hrun
  · rename_i hchunks
    cases hrun
    obtain ⟨hdepth, hpos⟩ := readChunks_error hchunks
    rw [State.advance_pos] at hpos
    exact ⟨hdepth, hpos⟩

/-- `k` checks the characters of a text and ends the operation. -/
structure Finishes {α : Type} (o : Options) (t : Bool) (k : Bytes × Bool → M α) : Prop where
  returns : ∀ b s, (o.validateUtf8 = true → t = true → Utf8.Valid b.1) → ∃ a u, k b s = .ok a u
  fails : ∀ b s, ¬ (o.validateUtf8 = true → t = true → Utf8.Valid b.1) → ∃ e, k b s = .error e s

theorem decides_readString {α : Type} {t : Bool} {k : Bytes × Bool → M α} {r : Bytes}
    (hk : Finishes o t k) (hin : inp.drop s.pos = r) (hadm : Admitted o (parseHead r 0))
    (hmt : (parseHead r 0).mt = strMajor t) :
    Decides ((readString o inp (parseHead r 0) (strMajor t) >>= k) s) s (StringAt o t r)
      (NoString t (parseHead r 0) r) := by
  have hview := parseHead_view r 0
  rw [List.drop_zero] at hview
  generalize hh : parseHead r 0 = h at hview hadm hmt ⊢
  cases hview with
  | truncated hz => exact absurd hz hadm.1
  | brk r => cases hadm.2.1
  | reserved m hlo hhi r => cases hadm.2.2.1
  | reservedIndefinite hm r => cases hadm.2.2.1
  | indefinite hm r =>
    obtain rfl := hmt
    have hlax : o.requireDeterministic = false := by
      cases hdet : o.requireDeterministic with
      | false => rfl
      | true => cases (hadm.2.2.2.2.2 hdet).1
    cases hrun : readString o inp { mt := strMajor t, ai := 31, indefinite := true, length := 1 }
      (strMajor t) s with
    | ok b u =>
      obtain ⟨-, cs, r', hcs, heq, rfl, -⟩ := (readString_indefinite rfl rfl hin).1 hrun
      rw [hin] at heq
      have hvalid : o.validateUtf8 = true → t = true → Utf8.Valid (cs.flatMap Chunk.payload) := by
        rintro hv rfl
        exact valid_flatMap_payload ((chunkOk_iff.1 hcs).2 hv)
      obtain ⟨a, w, hret⟩ := hk.returns (cs.flatMap Chunk.payload, true) u hvalid
      rw [Run.bind_of_ok hrun, hret]
      exact stringAt_indefinite.2 ⟨cs, r', hcs, heq⟩
    | error e u =>
      obtain ⟨hdepth, hpos⟩ := readString_chunks_error rfl rfl hlax hrun
      rw [Run.bind_of_error hrun]
      refine ⟨fun hat => ?_, hdepth, hpos.le, ?_⟩
      · obtain ⟨cs, r', hcs, heq⟩ := stringAt_indefinite.1 hat
        rw [← hin] at heq
        rw [(readString_indefinite rfl rfl hin).2 ⟨hlax, cs, r', hcs, heq, rfl, rfl⟩] at hrun
        cases hrun
      · simp only [NoString, ne_eq, not_true_eq_false, false_or, Bool.true_eq_false, false_and,
          iff_false]
        omega
  | head m hd r =>
    obtain rfl : m = strMajor t := hmt
    have hno : NoString t (hd.parsed (strMajor t)) (hd.bytes (strMajor t) ++ r) ↔
      r.length < hd.value := by
      simp [NoString, Head.parsed, hd.bytes_length]
    rw [hno, stringAt_definite]
    rcases Nat.lt_or_ge r.length hd.value with hlt | hle
    · rw [Run.bind_of_error (readString_cut hin hlt)]
      exact .refused (fun hat => absurd hat.1 (not_le.2 hlt)) hlt
    · have hrun := (readString_definite (o := o) hin).2 ⟨hle, rfl, rfl⟩
      rw [Run.bind_of_ok hrun]
      by_cases hvalid : o.validateUtf8 = true → t = true → Utf8.Valid (r.take hd.value)
      · obtain ⟨a, w, hret⟩ := hk.returns (r.take hd.value, false) _ hvalid
        rw [hret]
        exact ⟨hle, hvalid⟩
      · obtain ⟨e, hfail⟩ :=
          hk.fails (r.take hd.value, false) (s.advance ((hd.bytes (strMajor t)).length + hd.value))
          hvalid
        rw [hfail]
        refine ⟨fun hat => hvalid hat.2, rfl, Nat.le_add_right _ _, ?_⟩
        rw [State.advance_pos, hd.bytes_length]
        omega

/-! ### The operations on an item -/

inductive ItemCall
  | null
  | boolean
  | uint
  | sint
  | nint
  | simple
  | real
  | text
  | bytes
  | array
  | map
  deriving DecidableEq, Repr

/-- The operation takes the item whose head `h` stands in front of `r`. -/
def ItemCall.Takes (o : Options) (depth : Nat) (h : ParsedHead) (r : Bytes) : ItemCall → Prop
  | .null => h.mt = .simple ∧ (h.ai = 22 ∨ (o.undefinedAsNull = true ∧ h.ai = 23))
  | .boolean => h.mt = .simple ∧ (h.ai = 20 ∨ h.ai = 21)
  | .uint => h.mt = .uint
  | .sint => (h.mt = .uint ∨ h.mt = .nint) ∧ h.value ≤ int64Max
  | .nint => h.mt = .nint
  | .simple => h.mt = .simple ∧ ¬ (20 ≤ h.ai ∧ h.ai ≤ 23) ∧ ¬ (25 ≤ h.ai ∧ h.ai ≤ 27)
  | .real => h.mt = .uint ∨ h.mt = .nint ∨
      (h.mt = .simple ∧ (25 ≤ h.ai ∧ h.ai ≤ 27) ∧
        (o.requireDeterministic = true → PreferredFloat h.ai h.value))
  | .text => StringAt o true r
  | .bytes => StringAt o false r
  | .array => h.mt = .array ∧ depth < o.maxDepth
  | .map => h.mt = .map ∧ depth < o.maxDepth

/-- The operation refuses the item at its head. A string that is there in full and broken is refused
behind its head. -/
def ItemCall.Leaves (o : Options) (depth : Nat) (h : ParsedHead) (r : Bytes) : ItemCall → Prop
  | .text => NoString true h r
  | .bytes => NoString false h r
  | c => ¬ c.Takes o depth h r

/-- A failure of the operation leaves position and depth alone. -/
def ItemCall.Undisturbed (o : Options) (inp : Bytes) (s : State) : ItemCall → Prop
  | .null => Cbor.Undisturbed (expectNull o inp) s
  | .boolean => Cbor.Undisturbed (expectBoolean o inp) s
  | .uint => Cbor.Undisturbed (expectUint o inp) s
  | .sint => Cbor.Undisturbed (expectSint o inp) s
  | .nint => Cbor.Undisturbed (expectNint o inp) s
  | .simple => Cbor.Undisturbed (expectSimple o inp) s
  | .real => Cbor.Undisturbed (expectReal o inp) s
  | .text => Cbor.Undisturbed (expectText o inp) s
  | .bytes => Cbor.Undisturbed (expectBytes o inp) s
  | .array => Cbor.Undisturbed (expectArray o inp) s
  | .map => Cbor.Undisturbed (expectMap o inp) s

theorem undisturbed_map_iff {α β : Type} {m : M α} (f : α → β) :
    Undisturbed (m >>= fun a => pure (f a)) s ↔ Undisturbed m s := by
  apply forall₂_congr
  intro e t
  rw [Run.bind_eq_error]
  simp

section Decides

variable {α : Type} {h : ParsedHead} {r : Bytes} {d : Nat}

theorem decides_consume {takes leaves : Prop} {m : M α} (ht : takes)
    (hm : ∀ u, ∃ a v, m u = .ok a v) :
    Decides ((consume h >>= fun _ => m) s) s takes leaves := by
  obtain ⟨a, v, hret⟩ := hm (s.advance h.length)
  rw [Run.bind_of_ok (show consume h s = .ok ⟨⟩ (s.advance h.length) from rfl), hret]
  exact ht

theorem decides_return {takes leaves : Prop} {a : α} (ht : takes) :
    Decides ((consume h >>= fun _ => pure a) s) s takes leaves :=
  decides_consume ht fun u => ⟨a, u, rfl⟩

theorem decides_throwType {takes : Prop} {expected : Bytes} (ht : ¬ takes) :
    Decides ((throwType inp expected h : M α) s) s takes (¬ takes) := .refused ht ht

theorem decides_throwRange {takes : Prop} {detail : Bytes} (ht : ¬ takes) :
    Decides ((throwRange detail h : M α) s) s takes (¬ takes) := .refused ht ht

theorem decides_checked {leaves : Prop} (hf : h.mt = .simple ∧ 25 ≤ h.ai ∧ h.ai ≤ 27)
    (hu : ¬ h.mt = .uint) (hn : ¬ h.mt = .nint) (hl : ¬ ItemCall.Takes o d h r .real → leaves) :
    Decides ((match whenStrict o
      (checkPreferredFloat (floatOf h.ai h.value) h.ai h.value s.pos) with
      | some e => throw e
      | none => do
        consume h
        return floatOf h.ai h.value : M Double) s) s (ItemCall.Takes o d h r .real) leaves := by
  cases hcheck : whenStrict o (checkPreferredFloat (floatOf h.ai h.value) h.ai h.value s.pos) with
  | some e =>
    have hno : ¬ ItemCall.Takes o d h r .real := by
      rintro (ht | ht | ht)
      · exact hu ht
      · exact hn ht
      · rw [whenStrict_eq_none.2 fun hdet => checkPreferredFloat_eq_none.2 (ht.2.2 hdet)] at hcheck
        cases hcheck
    exact .refused hno (hl hno)
  | none =>
    exact decides_return
      (.inr (.inr ⟨hf.1, hf.2, fun hdet =>
      checkPreferredFloat_eq_none.1 (whenStrict_eq_none.1 hcheck hdet)⟩))

theorem decides_enter (isMap : Bool) {expected : Bytes} :
    Decides ((if h.mt ≠ containerMajor isMap then throwType inp expected h else enter o h : M
      (Option Nat)) s) s
      (h.mt = containerMajor isMap ∧ s.depth < o.maxDepth)
      (¬ (h.mt = containerMajor isMap ∧ s.depth < o.maxDepth)) := by
  refine .ite (fun hc => decides_throwType fun ht => hc ht.1) fun hc => ?_
  rw [enter]
  split
  · rename_i hfull
    exact .refused (fun ht => absurd ht.2 (not_lt.2 hfull)) fun ht => absurd ht.2 (not_lt.2 hfull)
  · rename_i hroom
    exact ⟨not_not.1 hc, not_le.1 hroom⟩

end Decides

/-- The end of `expect_text`. -/
def finishText (o : Options) (h : ParsedHead) (b : Bytes × Bool) : M TextRef := do
  let s ← get
  match (if o.validateUtf8 then validateUtf8 b.1 else none) with
  | some bad =>
    throw ((error .invalidUtf8 (s.start + if b.2 then 0 else h.length + bad)).withLength 1)
  | none => return { text := b.1, borrowed := !b.2, rawLength := s.pos - s.start }

theorem finishes_finishText (h : ParsedHead) : Finishes o true (finishText o h) := by
  have hcheck : ∀ b : Bytes, (if o.validateUtf8 then validateUtf8 b else none) = none ↔
      (o.validateUtf8 = true → true = true → Utf8.Valid b) := by
    intro b
    cases o.validateUtf8 with
    | false => simp
    | true => simp [validateUtf8_eq_none]
  refine ⟨fun b s hv => ?_, fun b s hv => ?_⟩
  · rw [finishText, Run.bind_of_ok (Run.get_apply s), (hcheck b.1).2 hv]
    exact ⟨_, s, rfl⟩
  · rw [finishText, Run.bind_of_ok (Run.get_apply s)]
    cases hbad : (if o.validateUtf8 then validateUtf8 b.1 else none) with
    | none => exact absurd ((hcheck b.1).1 hbad) hv
    | some bad => exact ⟨_, rfl⟩

theorem finishes_bytes :
    Finishes o false fun b :
      Bytes × Bool => (return { bytes := b.1, borrowed := !b.2 } : M BytesRef) :=
  ⟨fun b s _ => ⟨{ bytes := b.1, borrowed := !b.2 }, s, rfl⟩,
    fun _ _ hv => absurd (fun _ => nofun) hv⟩

theorem decides_bytes {r : Bytes} (hin : inp.drop s.pos = r) (hadm : Admitted o (parseHead r 0)) :
    Decides ((if (parseHead r 0).mt ≠ .bytes then throwType inp (str "byte string") (parseHead r 0)
      else readString o inp (parseHead r 0) .bytes >>= fun b =>
        return { bytes := b.1, borrowed := !b.2 } : M BytesRef) s) s
      (StringAt o false r) (NoString false (parseHead r 0) r) :=
  .ite (fun hc => .refused (fun hat => hc hat.major) (.inl hc)) fun hc =>
    decides_readString finishes_bytes hin hadm (not_not.1 hc)

theorem ItemCall.undisturbed_iff_head (c : ItemCall) :
    c.Undisturbed o inp s ↔ ∀ ts r, HeadAt o inp s.pos ts r →
      c.Takes o s.depth (parseHead r 0) r ∨ (ts = [] ∧ c.Leaves o s.depth (parseHead r 0) r) := by
  cases c with
  | null =>
    refine undisturbed_bind_iff (str "null") fun t r _ _ _ _ => ?_
    generalize parseHead r 0 = h
    exact .ite (fun hc => hc) fun hc => decides_throwType hc
  | boolean =>
    refine undisturbed_bind_iff (str "boolean") fun t r _ _ _ _ => ?_
    generalize parseHead r 0 = h
    exact .ite (fun hc => decides_return hc) fun hc => decides_throwType hc
  | uint =>
    refine undisturbed_bind_iff (str "unsigned integer") fun t r _ _ _ _ => ?_
    generalize parseHead r 0 = h
    exact .ite (fun hc => decides_return hc) fun hc =>
      .ite (fun _ => decides_throwRange hc) fun _ => decides_throwType hc
  | sint =>
    refine undisturbed_bind_iff (str "integer") fun t r _ _ _ _ => ?_
    generalize parseHead r 0 = h
    refine .ite (fun hu => ?_) fun hu => .ite (fun hn => ?_) fun hn => ?_
    · exact .ite (fun hlt => decides_throwRange fun ht => absurd ht.2 (not_le.2 hlt)) fun hle =>
        decides_return ⟨.inl hu, not_lt.1 hle⟩
    · exact .ite (fun hlt => decides_throwRange fun ht => absurd ht.2 (not_le.2 hlt)) fun hle =>
        decides_return ⟨.inr hn, not_lt.1 hle⟩
    · exact decides_throwType fun ht => ht.1.elim hu hn
  | nint =>
    refine undisturbed_bind_iff (str "negative integer") fun t r _ _ _ _ => ?_
    generalize parseHead r 0 = h
    exact .ite (fun hc => decides_throwType hc) fun hc => decides_return (not_not.1 hc)
  | simple =>
    refine undisturbed_bind_iff (str "simple value") fun t r _ _ _ _ => ?_
    generalize parseHead r 0 = h
    refine .ite (fun hc => decides_throwType fun ht => ?_) fun hc => decides_return ?_
    · rcases hc with hc | hc | hc
      · exact hc ht.1
      · exact ht.2.1 hc
      · exact ht.2.2 hc
    · rw [not_or, not_or, not_not] at hc
      exact hc
  | real =>
    refine undisturbed_bind_iff (str "float") fun t r _ _ _ _ => ?_
    generalize parseHead r 0 = h
    refine .ite (fun hu => decides_return (.inl hu)) fun hu =>
      .ite (fun hn => decides_return (.inr (.inl hn))) fun hn =>
      .ite (fun hf => ?_) fun hf => decides_throwType fun ht => ?_
    · rw [Run.bind_of_ok (Run.get_apply t)]
      exact decides_checked hf hu hn id
    · rcases ht with ht | ht | ht
      · exact hu ht
      · exact hn ht
      · exact hf ⟨ht.1, ht.2.1⟩
  | text =>
    refine undisturbed_bind_iff (str "text string") fun t r hin _ _ hadm => ?_
    refine .ite (fun hc => .refused (fun hat => hc hat.major) (.inl hc)) fun hc =>
      decides_readString (finishes_finishText (parseHead r 0)) hin hadm (not_not.1 hc)
  | bytes =>
    exact undisturbed_bind_iff (str "byte string") fun t r hin _ _ hadm => decides_bytes hin hadm
  | array =>
    refine (undisturbed_map_iff _).trans ?_
    refine undisturbed_bind_iff (str "array") fun t r _ _ hdepth _ => ?_
    exact hdepth ▸ decides_enter false
  | map =>
    refine (undisturbed_map_iff _).trans ?_
    refine undisturbed_bind_iff (str "map") fun t r _ _ hdepth _ => ?_
    exact hdepth ▸ decides_enter true

/-! ### Tags and big numbers -/

theorem Decides.undisturbed_iff
    {α : Type} {m : M α} {takes leaves : Prop} (hdec : Decides (m s) s takes leaves) :
    Undisturbed m s ↔ takes ∨ leaves := by
  rw [Undisturbed]
  cases hx : m s with
  | ok a t =>
    rw [hx] at hdec
    exact iff_of_true nofun (.inl hdec)
  | error e t =>
    rw [hx] at hdec
    obtain ⟨hno, hdepth, -, hleaves⟩ := hdec
    rw [or_iff_right hno, ← hleaves]
    constructor
    · exact fun h => (h e t rfl).1
    · rintro hpos _ _ ⟨⟩
      exact ⟨hpos, hdepth⟩

/-- Tags of these values stand at `p`. -/
def TagsAt (inp : Bytes) (ts : List Nat) (p : Nat) : Prop :=
  ∃ (ks : List Head) (r : Bytes), ks.map Head.value = ts ∧ inp.drop p = tagBytes ks ++ r

theorem tagsAt_cons {t p : Nat} {ts : List Nat} {k : Head} {r : Bytes}
    (hin : inp.drop p = k.bytes .tag ++ r) :
    TagsAt inp (t :: ts) p ↔ k.value = t ∧ TagsAt inp ts (p + (k.bytes .tag).length) := by
  constructor
  · rintro ⟨ks, r', hks, hin'⟩
    cases ks with
    | nil => cases hks
    | cons k' ks =>
      rw [tagBytes, List.flatMap_cons, List.append_assoc, hin] at hin'
      obtain ⟨-, rfl, rfl⟩ := Head.bytes_append_inj hin'
      rw [List.map_cons, List.cons.injEq] at hks
      exact ⟨hks.1, ks, r', hks.2, drop_add hin⟩
  · rintro ⟨rfl, ks, r', rfl, hin'⟩
    refine ⟨k :: ks, r', rfl, ?_⟩
    rw [tagBytes, List.flatMap_cons, List.append_assoc, hin, ← drop_add hin, hin', tagBytes]

/-- The head that `rawHead` returns is the one in front. -/
theorem rawHead_ok {h : ParsedHead} (hrun : rawHead inp s = .ok h t) :
    h = parseHead inp s.pos ∧ t = s := by
  rw [rawHead] at hrun
  split at hrun
  · cases hrun
  split at hrun
  · cases hrun
  split at hrun
  · cases hrun
  split at hrun
  · cases hrun
  · cases hrun
    exact ⟨rfl, rfl⟩

theorem rawHead_error {e : Error} (hrun : rawHead inp s = .error e t) : t = s := by
  rw [rawHead] at hrun
  split at hrun
  · cases hrun
    rfl
  split at hrun
  · cases hrun
    rfl
  split at hrun
  · cases hrun
    rfl
  split at hrun
  · cases hrun
    rfl
  · cases hrun

theorem rawHead_tagged {k : Head} {r : Bytes} (hin : inp.drop s.pos = k.bytes .tag ++ r) :
    rawHead inp s = .ok (k.parsed .tag) s := by
  have hlen := length_drop hin
  rw [List.length_append, k.bytes_length] at hlen
  have hzero : ¬ (k.parsed .tag).length = 0 := show ¬ 1 + k.width.size = 0 by omega
  rw [rawHead, parseHead_head hin, if_neg (by omega), if_neg hzero,
    if_neg (show ¬ (k.parsed .tag).reserved = true from nofun),
    if_neg (show ¬ (k.parsed .tag).isBreak = true from nofun)]

/-- A tag head that `rawHead` returns is one of the grammar. -/
theorem rawHead_mt_tag {h : ParsedHead} (hrun : rawHead inp s = .ok h t) (htag : h.mt = .tag) :
    ∃ (k : Head) (r : Bytes), inp.drop s.pos = k.bytes .tag ++ r ∧ h = k.parsed .tag := by
  have hrun' := hrun
  obtain ⟨rfl, rfl⟩ := rawHead_ok hrun
  have hview := parseHead_view inp t.pos
  rw [rawHead] at hrun
  generalize parseHead inp t.pos = h at *
  generalize inp.drop t.pos = bs at *
  split at hrun
  · cases hrun
  cases hview with
  | truncated hz =>
    rw [if_pos hz] at hrun
    cases hrun
  | brk r => cases htag
  | reserved m hlo hhi r => cases hrun
  | reservedIndefinite hm r => cases hrun
  | indefinite hm r =>
    obtain rfl | rfl | rfl | rfl := hm
    all_goals cases htag
  | head m k r =>
    obtain rfl : m = .tag := htag
    exact ⟨k, r, rfl, rfl⟩

theorem TagsAt.rawHead {t : Nat} {ts : List Nat} (hat : TagsAt inp (t :: ts) s.pos) :
    ∃ k : Head, k.value = t ∧ rawHead inp s = .ok (k.parsed .tag) s := by
  obtain ⟨ks, r, hks, hin⟩ := hat
  cases ks with
  | nil => cases hks
  | cons k ks =>
    rw [tagBytes, List.flatMap_cons, List.append_assoc] at hin
    rw [List.map_cons, List.cons.injEq] at hks
    exact ⟨k, hks.1, rawHead_tagged hin⟩

/-- `expect_tags` returns behind the expected tags. It fails where it stands exactly if the first
one is missing. -/
theorem decides_expectTags (ts : List Nat) :
    Decides (expectTags inp ts s) s (TagsAt inp ts s.pos)
      (∀ t ∈ ts.head?, ¬ TagsAt inp [t] s.pos) := by
  induction ts generalizing s with
  | nil => exact ⟨[], inp.drop s.pos, rfl, rfl⟩
  | cons t ts ih =>
    rw [expectTags]
    cases hraw : rawHead inp s with
    | error e u =>
      obtain rfl := rawHead_error hraw
      have hno : ∀ ts, ¬ TagsAt inp (t :: ts) u.pos := by
        intro ts hat
        obtain ⟨k, -, hrun⟩ := hat.rawHead
        rw [hrun] at hraw
        cases hraw
      rw [Run.bind_of_error hraw]
      refine .refused (hno ts) ?_
      rintro _ ⟨⟩
      exact hno []
    | ok h u =>
      obtain ⟨hh, rfl⟩ := rawHead_ok hraw
      rw [Run.bind_of_ok hraw]
      refine .ite (fun hc => ?_) fun hc => ?_
      · have hno : ∀ ts, ¬ TagsAt inp (t :: ts) u.pos := by
          intro ts hat
          obtain ⟨k, hk, hrun⟩ := hat.rawHead
          rw [hrun] at hraw
          cases hraw
          exact hc.elim (fun hne => hne rfl) fun hne => hne hk
        refine .refused (hno ts) ?_
        rintro _ ⟨⟩
        exact hno []
      · rw [not_or, not_not, not_not] at hc
        obtain ⟨k, r, hin, rfl⟩ := rawHead_mt_tag hraw hc.1
        have hadv : consume (k.parsed .tag) u = .ok ⟨⟩ (u.advance (k.bytes .tag).length) := by
          rw [k.bytes_length]
          rfl
        rw [Run.bind_of_ok hadv]
        have hdec := @ih (u.advance (k.bytes .tag).length)
        have hone : TagsAt inp [t] u.pos := (tagsAt_cons hin).2 ⟨hc.2, [], _, rfl, rfl⟩
        have hcons : TagsAt inp (t :: ts) u.pos ↔
          TagsAt inp ts (u.advance (k.bytes .tag).length).pos :=
          (tagsAt_cons hin).trans (and_iff_right hc.2)
        rw [hcons]
        cases hx : expectTags inp ts (u.advance (k.bytes .tag).length) with
        | ok a v =>
          rw [hx] at hdec
          exact hdec
        | error e v =>
          rw [hx] at hdec
          obtain ⟨hno, hdepth, hle, -⟩ := hdec
          rw [State.advance_pos, k.bytes_length] at hle
          refine ⟨hno, hdepth, by omega, ?_⟩
          constructor
          · intro hpos
            omega
          · intro hall
            exact absurd hone (hall t rfl)

/-- A byte string that fails keeps the depth. -/
theorem expectBytes_depth {e : Error} (hrun : expectBytes o inp s = .error e t) :
    t.depth = s.depth := by
  rcases Run.bind_eq_error.1 hrun with hhead | ⟨h, u, hhead, hrest⟩
  · rw [itemHead] at hhead
    split at hhead
    · cases hhead
    · cases hhead
      rfl
  rw [itemHead] at hhead
  split at hhead
  · rename_i p h' hscan
    cases hhead
    obtain ⟨ts, r, hat, rfl, rfl⟩ := (scanHead_eq_ok le_rfl).1 hscan
    have hdec := decides_bytes (s := s.behind ts) hat.rest hat.admitted
    change _ = EStateM.Result.error e t at hrest
    exact (hrest ▸ hdec).2.1
  · cases hhead

theorem undisturbed_expectBignum : Undisturbed (expectBignum o inp) s := by
  intro e t hrun
  rcases Run.bind_eq_error.1 hrun with hraw | ⟨h, u, hraw, hrest⟩
  · obtain rfl := rawHead_error hraw
    exact ⟨rfl, rfl⟩
  obtain ⟨-, rfl⟩ := rawHead_ok hraw
  split at hrest
  · cases hrest
    exact ⟨rfl, rfl⟩
  · rw [magnitude] at hrest
    split at hrest
    · rename_i hbytes
      cases hrest
      have hdepth := expectBytes_depth hbytes
      exact ⟨rfl, hdepth⟩
    · cases hrest

/-! ### All operations -/

inductive Expect
  | item (c : ItemCall)
  | bignum
  | tags (ts : List Nat)
  deriving DecidableEq, Repr

/-- A failure of the operation leaves position and depth alone. -/
def Expect.Undisturbed (o : Options) (inp : Bytes) (s : State) : Expect → Prop
  | .item c => c.Undisturbed o inp s
  | .bignum => Cbor.Undisturbed (expectBignum o inp) s
  | .tags ts => Cbor.Undisturbed (expectTags inp ts) s

/-- An operation on an item takes what stands behind the ignored tags, or there are none of these
and it refuses the item at its head. Of expected tags the first one is missing, or none is. -/
def Expect.Steady (o : Options) (inp : Bytes) (s : State) : Expect → Prop
  | .item c => ∀ ts r, HeadAt o inp s.pos ts r →
      c.Takes o s.depth (parseHead r 0) r ∨ (ts = [] ∧ c.Leaves o s.depth (parseHead r 0) r)
  | .bignum => True
  | .tags ts => TagsAt inp ts s.pos ∨ ∀ t ∈ ts.head?, ¬ TagsAt inp [t] s.pos

/-- An operation that fails leaves position and depth alone exactly if it is steady there. -/
theorem Expect.undisturbed_iff_steady (o : Options) (inp : Bytes) (s : State) (c : Expect) :
    c.Undisturbed o inp s ↔ c.Steady o inp s := by
  cases c with
  | item c => exact c.undisturbed_iff_head
  | bignum => exact iff_of_true undisturbed_expectBignum trivial
  | tags ts => exact (decides_expectTags ts).undisturbed_iff

/-- An unsigned integer is expected and a tagged text stands there: the tag is consumed. -/
theorem Expect.not_undisturbed :
    ¬ ∀ (o : Options) (inp : Bytes) (s : State) (c : Expect), c.Undisturbed o inp s := by
  intro hall
  have hpos := (hall {} [0xC1, 0x60] {} (.item .uint) _ { pos := 1, start := 1 } rfl).1
  exact absurd hpos (by decide)

end VCodec.Cbor
