import Mathlib.Data.List.Chain
import VCodec.Cbor.Span

/-!
# The cursors of the reader

A cursor hands out the elements of a container and ends where the validator would end it. The cursor
of a map also records, under the validation of deterministic encoding, the extent of every key that
its look-ahead could skip. Where the tags are in shortest form these are all the keys, so they
ascend.
-/

namespace VCodec.Cbor

variable {o : Options} {inp : Bytes}

/-! ### Saved places -/

/-- A place whose position and depth fit the word is found again. -/
theorem restore_save {s : State} (hpos : s.pos < 2 ^ 48) (hdepth : s.depth < 2 ^ 16) (t : State) :
    t.restore s.save = { t with pos := s.pos, depth := s.depth } := by
  rw [State.restore, State.save, saved_pos s.depth hpos, saved_depth hpos hdepth]

/-! ### Counting -/

theorem Counts.zero_eq {count : Option Head} {n : Nat} (h : Counts count n (some 0)) :
    ∃ h, count = some h ∧ h.value = n := by
  cases count with
  | none => cases h
  | some h' =>
    simp only [Counts, Option.map_some, Option.some.injEq, Nat.zero_add] at h
    exact ⟨h', rfl, h.symm⟩

theorem Counts.none_eq {count : Option Head} {n : Nat} (h : Counts count n none) :
    count = none := by
  cases count with
  | none => rfl
  | some h' => cases h

theorem Counts.succ {count : Option Head} {n k : Nat} (h : Counts count n (some (k + 1))) :
    Counts count (n + 1) (some k) := by
  simp only [Counts, Option.map_some] at h ⊢
  rw [← h, Nat.add_assoc, Nat.add_comm 1 n]

theorem Counts.none {n m : Nat} {count : Option Head} (h : Counts count n none) :
    Counts count m none := by
  rw [h.none_eq]
  rfl

/-- How a cursor that counts `remaining` ends. -/
def Ends (inp : Bytes) (remaining : Option Nat) (s t : State) : Prop :=
  (remaining = some 0 ∧ t = { s with depth := s.depth - 1 }) ∨
    (remaining = none ∧ (inp.drop s.pos).head? = some breakByte ∧
      t = { s with pos := s.pos + 1, depth := s.depth - 1 })

theorem Inside.ends {isMap : Bool} {s t u : State} {count : Option Head} {xs : List Item} {n : Nat}
    {remaining : Option Nat} (hin : Inside o inp isMap s count xs t)
    (hends : Ends inp remaining t u) (hcounts : Counts count n remaining)
    (hlen : xs.length = if isMap then 2 * n else n) (hsize : inp.length < 2 ^ 64)
    (hkeys : o.requireDeterministic = true → (∀ x ∈ xs, Sat ShortTag o.maxDepth (s.depth + 1) x) →
      isMap = true → KeysAscend true none xs) : Spans o inp s u := by
  obtain ⟨rfl, rfl⟩ | ⟨rfl, hbrk, rfl⟩ := hends
  · obtain ⟨h, rfl, rfl⟩ := hcounts.zero_eq
    exact hin.closeDefinite hlen hsize hkeys
  · obtain rfl := hcounts.none_eq
    refine hin.closeIndefinite hbrk fun hmap => ?_
    rw [hlen, hmap, if_pos rfl]
    omega

/-! ### Arrays -/

/-- The reader stands between the elements of the array that begins at `s`. -/
def InSeq (o : Options) (inp : Bytes) (s : State) (c : SeqCursor) (t : State) : Prop :=
  ∃ s₀ count xs, Tagged inp s s₀ ∧ Inside o inp false s₀ count xs t ∧
    Counts count xs.length c.remaining

theorem expectArray_ok {s t : State} {c : SeqCursor} (hrun : expectArray o inp s = .ok c t) :
    InSeq o inp s c t := by
  rw [expectArray, Run.bind_eq_ok] at hrun
  obtain ⟨remaining, t', hrun, hc⟩ := hrun
  cases hc
  obtain ⟨s₀, count, htagged, hin, hcounts⟩ := expectContainer_ok hrun
  exact ⟨s₀, count, [], htagged, hin, hcounts⟩

theorem SeqCursor.next_more {s t u v : State} {c c' : SeqCursor} (hin : InSeq o inp s c t)
    (hrun : SeqCursor.next inp c t = .ok (true, c') u) (hspan : Spans o inp u v) :
    InSeq o inp s c' v := by
  obtain ⟨s₀, count, xs, htagged, hinside, hcounts⟩ := hin
  have hstep : u = t ∧ Counts count (xs.length + 1) c'.remaining := by
    unfold SeqCursor.next at hrun
    split at hrun
    · cases hrun
    · rename_i n hn
      split at hrun
      · cases hrun
      · cases hrun
        rw [hn] at hcounts
        exact ⟨rfl, hcounts.succ⟩
    · rename_i hn
      split at hrun
      · cases hrun
      split at hrun
      · cases hrun
      · cases hrun
        rw [hn] at hcounts ⊢
        exact ⟨rfl, hcounts.none⟩
  obtain ⟨rfl, hcounts'⟩ := hstep
  obtain ⟨x, -, -, -, hinside'⟩ := hinside.push hspan
  refine ⟨s₀, count, xs ++ [x], htagged, hinside', ?_⟩
  rwa [List.length_append]

theorem SeqCursor.next_done {s t u : State} {c c' : SeqCursor} (hsize : inp.length < 2 ^ 64)
    (hin : InSeq o inp s c t) (hrun : SeqCursor.next inp c t = .ok (false, c') u) :
    Spans o inp s u := by
  obtain ⟨s₀, count, xs, htagged, hinside, hcounts⟩ := hin
  have hends : Ends inp c.remaining t u := by
    unfold SeqCursor.next at hrun
    split at hrun
    · cases hrun
      exact .inl ⟨‹_›, rfl⟩
    · split at hrun
      · cases hrun
      · cases hrun
    · split at hrun
      · cases hrun
      split at hrun
      · cases hrun
        exact .inr ⟨‹_›, ‹_›, rfl⟩
      · cases hrun
  exact htagged.spans (hinside.ends hends hcounts rfl hsize fun _ _ hmap => by cases hmap)

/-! ### Maps -/

/-- The key before the one the cursor is to hand out. -/
def MapCursor.prevKey (inp : Bytes) (c : MapCursor) : Option Bytes :=
  if c.havePrev then some (subspan inp c.prevStart c.prevEnd) else none

/-- The look-ahead raises no error if the key follows the one before it. -/
theorem MapCursor.order_eq_none (c : MapCursor) {cur : Bytes} {start : Nat} :
    (if c.havePrev then keyOrderError cur (subspan inp c.prevStart c.prevEnd) start else none) =
      none ↔
      ∀ p ∈ c.prevKey inp, p < cur := by
  unfold MapCursor.prevKey
  cases c.havePrev with
  | false => exact iff_of_true rfl fun p hp => nomatch hp
  | true =>
    rw [if_pos rfl, if_pos rfl, keyOrderError_eq_none]
    exact ⟨fun h p hp => Option.mem_some_iff.1 hp ▸ h, fun h => h _ rfl⟩

/-- What the cursor knows of the keys handed out so far. -/
def Recorded (o : Options) (inp : Bytes) (c : MapCursor) (d : Nat) (keys : List Item) : Prop :=
  o.requireDeterministic = true → (∀ k ∈ keys, Sat ShortTag o.maxDepth d k) →
    (keys.map Item.bytes).IsChain (· < ·) ∧ c.prevKey inp = (keys.map Item.bytes).getLast?

/-- The key that the look-ahead can skip is recorded, and follows the previous one. -/
theorem MapCursor.keyAhead_ok {s t : State} {c c' : MapCursor} {more : Bool} (hpos : s.pos < 2 ^ 48)
    (hdepth : s.depth < 2 ^ 16) (hrun : MapCursor.keyAhead o inp c s = .ok (more, c') t) :
    more = true ∧ c'.remaining = c.remaining ∧ Same s t ∧ (o.requireDeterministic = true →
      ∀ k r, Accepts o s.depth k → inp.drop s.pos = k.bytes ++ r →
        (∀ p ∈ c.prevKey inp, p < k.bytes) ∧ c'.prevKey inp = some k.bytes) := by
  unfold MapCursor.keyAhead at hrun
  split at hrun
  · rename_i hdet
    cases hskip : Cbor.skipValue o inp s with
    | error e s' =>
      rw [hskip] at hrun
      cases hrun
      rw [restore_save hpos hdepth]
      refine ⟨rfl, rfl, ⟨rfl, rfl⟩, fun _ k r hk hin => ?_⟩
      rw [skipValue_ok_iff.2 ⟨k, r, hk, hin, rfl⟩] at hskip
      cases hskip
    | ok u s' =>
      rw [hskip] at hrun
      simp only at hrun
      split at hrun
      · cases hrun
      rename_i hcheck
      cases hrun
      rw [restore_save hpos hdepth]
      refine ⟨rfl, rfl, ⟨rfl, rfl⟩, fun _ k r hk hin => ?_⟩
      rw [skipValue_ok_iff.2 ⟨k, r, hk, hin, rfl⟩] at hskip
      cases hskip
      rw [State.advance_pos, subspan_eq hin] at hcheck
      refine ⟨c.order_eq_none.1 hcheck, ?_⟩
      simp only [MapCursor.prevKey, if_true, State.advance_pos]
      rw [subspan_eq hin]
  · rename_i hdet
    cases hrun
    exact ⟨rfl, rfl, ⟨rfl, rfl⟩, fun h => absurd h hdet⟩

theorem Recorded.snoc {c c' : MapCursor} {d : Nat} {keys : List Item} {k : Item}
    (h : Recorded o inp c d keys) (hk : Parsed o d k)
    (hahead : o.requireDeterministic = true → Accepts o d k →
      (∀ p ∈ c.prevKey inp, p < k.bytes) ∧ c'.prevKey inp = some k.bytes) :
    Recorded o inp c' d (keys ++ [k]) := by
  intro hdet hshort
  rw [List.forall_mem_append, List.forall_mem_singleton] at hshort
  obtain ⟨hchain, hlast⟩ := h hdet hshort.1
  obtain ⟨hprev, hnext⟩ := hahead hdet (hk.accepts fun _ => hshort.2)
  rw [List.map_append, List.map_singleton, List.getLast?_concat]
  refine ⟨hchain.append (.singleton _) fun p hp q hq => ?_, hnext⟩
  rw [← hlast] at hp
  cases hq
  exact hprev p hp

/-- The reader stands between the entries of the map that begins at `s`. -/
def InMap (o : Options) (inp : Bytes) (s : State) (c : MapCursor) (t : State) : Prop :=
  ∃ s₀ count es, Tagged inp s s₀ ∧ Inside o inp true s₀ count (alternate es) t ∧
    Counts count es.length c.remaining ∧ Recorded o inp c (s₀.depth + 1) (es.map Prod.fst)

/-- The reader stands at a key that the cursor has handed out. -/
def AtKey (o : Options) (inp : Bytes) (s : State) (c : MapCursor) (t : State) : Prop :=
  ∃ s₀ count es, Tagged inp s s₀ ∧ Inside o inp true s₀ count (alternate es) t ∧
    Counts count (es.length + 1) c.remaining ∧
    ∀ k r, Parsed o (s₀.depth + 1) k → inp.drop t.pos = k.bytes ++ r →
      Recorded o inp c (s₀.depth + 1) (es.map Prod.fst ++ [k])

/-- The reader stands behind the key, at the value of the entry. -/
def AtValue (o : Options) (inp : Bytes) (s : State) (c : MapCursor) (t : State) : Prop :=
  ∃ s₀ count es k, Tagged inp s s₀ ∧ Inside o inp true s₀ count (alternate es ++ [k]) t ∧
    Counts count (es.length + 1) c.remaining ∧
    Recorded o inp c (s₀.depth + 1) (es.map Prod.fst ++ [k])

theorem expectMap_ok {s t : State} {c : MapCursor} (hrun : expectMap o inp s = .ok c t) :
    InMap o inp s c t := by
  rw [expectMap, Run.bind_eq_ok] at hrun
  obtain ⟨remaining, t', hrun, hc⟩ := hrun
  cases hc
  obtain ⟨s₀, count, htagged, hin, hcounts⟩ := expectContainer_ok hrun
  exact ⟨s₀, count, [], htagged, hin, hcounts, fun _ _ => ⟨.nil, rfl⟩⟩

/-- The cursor hands out a key by looking ahead at it, one entry further in its count. -/
theorem MapCursor.next_more {s t : State} {c c' : MapCursor} {count : Option Head} {n : Nat}
    (hcounts : Counts count n c.remaining) (hrun : MapCursor.next o inp c s = .ok (true, c') t) :
    ∃ c₁ : MapCursor, Counts count (n + 1) c₁.remaining ∧ c₁.prevKey inp = c.prevKey inp ∧
      MapCursor.keyAhead o inp c₁ s = .ok (true, c') t := by
  unfold MapCursor.next at hrun
  split at hrun
  · cases hrun
  · rename_i k hk
    split at hrun
    · cases hrun
    · rw [hk] at hcounts
      exact ⟨{ c with remaining := some k }, hcounts.succ, rfl, hrun⟩
  · rename_i hk
    split at hrun
    · cases hrun
    split at hrun
    · cases hrun
    · rw [hk] at hcounts
      refine ⟨c, ?_, rfl, hrun⟩
      rw [hk]
      exact hcounts.none

theorem MapCursor.next_done {s t : State} {c c' : MapCursor} (hpos : s.pos < 2 ^ 48)
    (hdepth : s.depth < 2 ^ 16) (hrun : MapCursor.next o inp c s = .ok (false, c') t) :
    Ends inp c.remaining s t := by
  unfold MapCursor.next at hrun
  split at hrun
  · cases hrun
    exact .inl ⟨‹_›, rfl⟩
  · split at hrun
    · cases hrun
    · cases (keyAhead_ok hpos hdepth hrun).1
  · split at hrun
    · cases hrun
    split at hrun
    · cases hrun
      exact .inr ⟨‹_›, ‹_›, rfl⟩
    · cases (keyAhead_ok hpos hdepth hrun).1

/-- The input fits the position, and the nesting the depth, of a saved place. -/
structure Addressable (o : Options) (inp : Bytes) : Prop where
  length : inp.length < 2 ^ 48
  depth : o.maxDepth < 2 ^ 16

theorem Inside.addressable {isMap : Bool} {s t : State} {count : Option Head} {xs : List Item}
    (ha : Addressable o inp) (hin : Inside o inp isMap s count xs t) :
    t.pos < 2 ^ 48 ∧ t.depth < 2 ^ 16 := by
  have hroom := hin.room
  have hdepth := hin.depth
  exact ⟨lt_of_le_of_lt hin.bound ha.length, by have := ha.depth; omega⟩

section Map

variable {s t u : State} {c c' : MapCursor} (ha : Addressable o inp)

theorem AtKey.same (hat : AtKey o inp s c t) (hsame : Same t u) : AtKey o inp s c u := by
  obtain ⟨s₀, count, es, htagged, hin, hcounts, hrec⟩ := hat
  obtain ⟨hpos, hdepth⟩ := hsame
  refine ⟨s₀, count, es, htagged, ⟨hin.room, hdepth.trans hin.depth, hin.definite, hin.items,
    hpos.trans hin.pos, hin.bytes⟩, hcounts, ?_⟩
  rwa [hpos]

theorem AtKey.value (hat : AtKey o inp s c t) (hspan : Spans o inp t u) : AtValue o inp s c u := by
  obtain ⟨s₀, count, es, htagged, hin, hcounts, hrec⟩ := hat
  obtain ⟨k, r, hk, hbytes, hin'⟩ := hin.push hspan
  rw [hin.depth] at hk
  exact ⟨s₀, count, es, k, htagged, hin', hcounts, hrec k r hk hbytes⟩

theorem AtValue.entry (hat : AtValue o inp s c t) (hspan : Spans o inp t u) :
    InMap o inp s c u := by
  obtain ⟨s₀, count, es, k, htagged, hin, hcounts, hrec⟩ := hat
  obtain ⟨v, -, -, -, hin'⟩ := hin.push hspan
  have hentry : alternate es ++ [k] ++ [v] = alternate (es ++ [(k, v)]) := by simp [alternate]
  rw [hentry] at hin'
  refine ⟨s₀, count, es ++ [(k, v)], htagged, hin', ?_, ?_⟩
  · rwa [List.length_append]
  · rwa [List.map_append]

include ha

theorem InMap.key (hin : InMap o inp s c t) (hrun : MapCursor.next o inp c t = .ok (true, c') u) :
    AtKey o inp s c' u := by
  obtain ⟨s₀, count, es, htagged, hinside, hcounts, hrec⟩ := hin
  obtain ⟨hpos, hdepth⟩ := hinside.addressable ha
  obtain ⟨c₁, hcounts', hprev, hahead⟩ := MapCursor.next_more hcounts hrun
  obtain ⟨-, hrem, hsame, hkey⟩ := MapCursor.keyAhead_ok hpos hdepth hahead
  refine AtKey.same ⟨s₀, count, es, htagged, hinside, by rwa [hrem], fun k r hk hbytes => ?_⟩ hsame
  refine hrec.snoc hk fun hdet hacc => ?_
  rw [← hprev]
  rw [← hinside.depth] at hacc
  exact hkey hdet k r hacc hbytes

theorem InMap.done (hin : InMap o inp s c t) (hrun : MapCursor.next o inp c t = .ok (false, c') u) :
    Spans o inp s u := by
  obtain ⟨s₀, count, es, htagged, hinside, hcounts, hrec⟩ := hin
  obtain ⟨hpos, hdepth⟩ := hinside.addressable ha
  refine htagged.spans (hinside.ends (MapCursor.next_done hpos hdepth hrun) hcounts
    (length_alternate es)
    (lt_trans ha.length (by decide)) fun hdet hshort _ => ?_)
  have hkeys : ∀ k ∈ es.map Prod.fst, Sat ShortTag o.maxDepth (s₀.depth + 1) k := by
    rw [forall_mem_alternate] at hshort
    rintro k hk
    obtain ⟨e, he, rfl⟩ := List.mem_map.1 hk
    exact (hshort e he).1
  have hchain := (hrec hdet hkeys).1
  rw [List.map_map, List.isChain_iff_pairwise, List.pairwise_map] at hchain
  exact keysAscend_alternate hchain fun p hp => nomatch hp

theorem expectMap_restore {c : MapCursor} (hrun : expectMap o inp s = .ok c t) (hsame : Same u s)
    (v : State) : Same u (v.restore u.save) := by
  obtain ⟨s₀, count, es, htagged, hin, -, -⟩ : InMap o inp s c t := expectMap_ok hrun
  have hdepth := htagged.depth
  have hroom := hin.room
  have hlen := hin.bound
  have hpos := htagged.pos_le
  have hfront := hin.pos
  rw [restore_save]
  · exact ⟨rfl, rfl⟩
  · have := ha.length
    have := hsame.1
    omega
  · have := ha.depth
    have := hsame.2
    omega

theorem AtValue.restore (hat : AtValue o inp s c t) (v : State) : Same t (v.restore t.save) := by
  obtain ⟨s₀, count, es, k, -, hin, -, -⟩ := hat
  obtain ⟨hpos, hdepth⟩ := hin.addressable ha
  rw [restore_save hpos hdepth]
  exact ⟨rfl, rfl⟩

theorem Spans.restore {c : MapCursor} (hrun : expectMap o inp s = .ok c t) (hspan : Spans o inp s u)
    (v : State) : Same u (v.restore u.save) := by
  obtain ⟨s₀, count, es, htagged, hin, -, -⟩ : InMap o inp s c t := expectMap_ok hrun
  have htag := htagged.depth
  have hroom := hin.room
  obtain ⟨x, r, -, hbytes, hpos, hdepth⟩ := hspan
  have hlen := congrArg List.length hbytes
  rw [List.length_drop, List.length_append] at hlen
  have hx := x.bytes_pos
  rw [restore_save]
  · exact ⟨rfl, rfl⟩
  · have := ha.length
    omega
  · have := ha.depth
    omega

end Map

/-! ### The reader as a format -/

/-- In the CBOR reader a value is a parsed item, and nothing but tags is ever skipped before one. -/
def spanLaws (env : Env) (ha : Addressable o inp) : SpanLaws (reader env o inp) where
  Same := Same
  Place := Same
  Value := Spans o inp
  InSeq := InSeq o inp
  InMap := InMap o inp
  AtKey := AtKey o inp
  AtValue := AtValue o inp
  same_refl := Same.refl
  same_trans := Same.trans
  same_place := id
  place_trans := Same.trans
  place_value := Same.spans
  value_same := Spans.same
  setCollected _ _ := ⟨rfl, rfl⟩
  offset h := by cases h; exact ⟨rfl, rfl⟩
  peek h := by cases h; exact ⟨rfl, rfl⟩
  keyKind h := by cases h; exact ⟨rfl, rfl⟩
  expectNull := spans_expectNull
  expectBoolean := spans_expectBoolean
  expectUint := spans_expectUint
  expectSint := spans_expectSint
  expectReal := spans_expectReal
  expectText := spans_expectText
  expectBytes := spans_expectBytes
  expectTags h hspan := (tagged_expectTags h).spans hspan
  readRange := readRange_ok
  skipValue h := by
    obtain ⟨x, r, hx, hin, rfl⟩ := skipValue_ok_iff.1 h
    exact ⟨x, r, hx.parsed, hin, rfl, rfl⟩
  expectArray := expectArray_ok
  next_more := SeqCursor.next_more
  next_done := SeqCursor.next_done (lt_trans ha.length (by decide))
  expectMap := expectMap_ok
  nextKey_more := InMap.key ha
  nextKey_done := InMap.done ha
  key_place := AtKey.same
  keyText hat h := hat.value (spans_expectText h)
  keyUint hat h := hat.value (spans_expectUint h)
  keySint hat h := hat.value (spans_expectSint h)
  value_entry := AtValue.entry
  restore_map hplace h v := expectMap_restore ha h hplace v
  restore_value hat v := hat.restore ha v
  restore_end h hspan v := hspan.restore ha h v

end VCodec.Cbor
