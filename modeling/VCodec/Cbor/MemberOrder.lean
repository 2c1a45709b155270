import VCodec.Cbor.RoundTrip

/-!
# The order of members

The keys of a struct ascend in the order that `member_order` fixes at compile time, so a struct is
written without buffering and its keys pass the reader's check.
-/

namespace VCodec.Cbor

/-! ### Keys -/

theorem wireKey_injective
    {j k : DocKey} (hj : FitsKey j) (hk : FitsKey k) (h : wireKey j = wireKey k) :
    keyItem j = keyItem k := by
  rw [← keyItem_bytes hj, ← keyItem_bytes hk] at h
  have hlax : ∀ {k : DocKey}, FitsKey k → Sat LaxNode 0 0 (keyItem k) := fun hk =>
    (written_key (o := { maxDepth := 0 }) hk 0).imp fun _ h => h.1
  exact ((hlax hj).unambiguous _ _ _ [] [] (hlax hk) (congrArg (· ++ []) h)).1

/-- The compile-time key of a member is the key that is written. -/
theorem wireKey_keyOf (d : StructDef) (f : Field) : wireKey (keyOf traits d f) = memberKey d f := by
  unfold keyOf memberKey
  cases hk : traits.integerKey d f with
  | some k =>
    rw [show integerKey d f = some k from hk]
    exact rfl
  | none =>
    rw [show integerKey d f = none from hk]
    exact rfl

theorem intItem_injective {k l : Int} (hk : Int64Range k) (hl : Int64Range l)
    (h : intItem k = intItem l) : k = l := by
  obtain ⟨hklo, hkhi⟩ := hk
  obtain ⟨hllo, hlhi⟩ := hl
  unfold intItem at h
  split at h <;> split at h
  · simp only [Item.leaf.injEq, true_and] at h
    have hvalue := congrArg Head.value h
    rw [headOf_value (by omega), headOf_value (by omega)] at hvalue
    omega
  · cases h
  · cases h
  · simp only [Item.leaf.injEq, true_and] at h
    have hvalue := congrArg Head.value h
    rw [headOf_value (by omega), headOf_value (by omega)] at hvalue
    omega

theorem intItem_ne_text (k : Int) (x : Bytes) : intItem k ≠ .str true (headOf x.length) x := by
  unfold intItem
  split <;> exact nofun

/-- Members whose keys are one item have one integer key, or one name. -/
theorem keyItem_keyOf {d : StructDef} {f g : Field}
    (hf : ∀ k, traits.integerKey d f = some k → Int64Range k)
    (hg : ∀ k, traits.integerKey d g = some k → Int64Range k)
    (h : keyItem (keyOf traits d f) = keyItem (keyOf traits d g)) :
    (∃ k, traits.integerKey d f = some k ∧ traits.integerKey d g = some k) ∨
      f.wireName = g.wireName := by
  unfold keyOf at h
  cases hkf : traits.integerKey d f with
  | some k =>
    cases hkg : traits.integerKey d g with
    | some l =>
      rw [hkf, hkg] at h
      obtain rfl := intItem_injective (hf k hkf) (hg l hkg) h
      exact .inl ⟨k, rfl, rfl⟩
    | none =>
      rw [hkf, hkg] at h
      exact absurd h (intItem_ne_text _ _)
  | none =>
    cases hkg : traits.integerKey d g with
    | some l =>
      rw [hkf, hkg] at h
      exact absurd h.symm (intItem_ne_text _ _)
    | none =>
      rw [hkf, hkg] at h
      have h : Item.str true _ f.wireName = Item.str true _ g.wireName := h
      exact .inr (Item.str.inj h).2.2

/-! ### The order -/

/-- What the audit finds of the keys of a struct, and what their types say. -/
structure DistinctKeys (d : StructDef) : Prop where
  names : (d.fields.map Field.wireName).Nodup
  keys : (d.fields.filterMap (integerKey d)).Nodup
  integers : ∀ f ∈ d.fields, ∀ k, integerKey d f = some k → Int64Range k
  sizes : ∀ f ∈ d.fields, f.wireName.length < 2 ^ 63

/-- The members in the order of their keys. -/
def orderedFields (d : StructDef) : List Field := (memberOrder d).filterMap fun i => d.fields[i]?

/-- Those that are written of the values of a struct. -/
def writtenFields (env : Env) (d : StructDef) (vs : List Val) : List Field :=
  (memberOrder d).filterMap fun i => d.fields[i]?.bind fun f => vs[i]?.bind fun v =>
    if f.written env v then some f else none

section

variable {d : StructDef}

theorem memberOrder_sorted (d : StructDef) : (memberOrder d).Pairwise fun i j =>
    (d.fields.map (memberKey d)).getD i [] ≤ (d.fields.map (memberKey d)).getD j [] :=
  List.pairwise_insertionSort _ _

theorem DistinctKeys.fitsKey (hd : DistinctKeys d) {f : Field} (hf : f ∈ d.fields) :
    FitsKey (keyOf traits d f) := by
  unfold keyOf
  cases hk : traits.integerKey d f with
  | some k => exact hd.integers f hf k hk
  | none => exact hd.sizes f hf

/-- Equal keys are those of one member. -/
theorem DistinctKeys.index
    (hd : DistinctKeys d) {i j : Nat} {f g : Field} (hf : d.fields[i]? = some f)
    (hg : d.fields[j]? = some g) (h : memberKey d f = memberKey d g) : i = j := by
  have hfm := List.mem_of_getElem? hf
  have hgm := List.mem_of_getElem? hg
  rw [← wireKey_keyOf, ← wireKey_keyOf] at h
  have hitem := wireKey_injective (hd.fitsKey hfm) (hd.fitsKey hgm) h
  obtain ⟨hi, rfl⟩ := List.getElem?_eq_some_iff.1 hf
  obtain ⟨hj, rfl⟩ := List.getElem?_eq_some_iff.1 hg
  rcases keyItem_keyOf (hd.integers _ hfm) (hd.integers _ hgm) hitem with ⟨k, hkf, hkg⟩ | hname
  · have hne : d.fields.Pairwise fun f g => ∀ k, integerKey d f = some k →
      ∀ l, integerKey d g = some l → k ≠ l :=
      List.pairwise_filterMap.1 hd.keys
    by_contra hij
    rcases Nat.lt_or_gt_of_ne hij with hlt | hlt
    · exact List.pairwise_iff_getElem.1 hne i j hi hj hlt k hkf k hkg rfl
    · exact List.pairwise_iff_getElem.1 hne j i hj hi hlt k hkg k hkf rfl
  · exact (@List.Nodup.getElem_inj_iff _ _ hd.names i (by rwa [List.length_map]) j
      (by rwa [List.length_map])).1
      (by rwa [List.getElem_map, List.getElem_map])

/-- In the order of `member_order` the encoded keys ascend. -/
theorem DistinctKeys.ascend (hd : DistinctKeys d) :
    ((orderedFields d).map (memberKey d)).Pairwise (· < ·) := by
  have hnodup : (memberOrder d).Nodup := (memberOrder_perm d).nodup_iff.2 List.nodup_range
  rw [List.pairwise_map, orderedFields, List.pairwise_filterMap]
  refine ((memberOrder_sorted d).and hnodup).imp fun {i j} hij f hf g hg => ?_
  have hle := hij.1
  rw [List.getD_eq_getElem?_getD, List.getD_eq_getElem?_getD, List.getElem?_map, List.getElem?_map,
    hf, hg] at hle
  exact lt_of_le_of_ne hle fun heq => hij.2 (hd.index hf hg heq)

theorem writtenFields_sublist (env : Env) (d : StructDef) (vs : List Val) :
    (writtenFields env d vs).Sublist (orderedFields d) := by
  unfold writtenFields orderedFields
  induction memberOrder d with
  | nil => exact .slnil
  | cons i is ih =>
    rw [List.filterMap_cons, List.filterMap_cons]
    cases hf : d.fields[i]? with
    | none => exact ih
    | some f =>
      rw [Option.bind_some]
      cases hw : vs[i]?.bind fun v => if f.written env v then some f else none with
      | none => exact ih.cons f
      | some g =>
        obtain ⟨v, -, hv⟩ := Option.bind_eq_some_iff.1 hw
        obtain ⟨-, hg⟩ := Option.ite_none_right_eq_some.1 hv
        cases hg
        exact ih.cons_cons f

end

/-! ### What is written -/

section

variable {env : Env} {d : StructDef} {vs : List Val} {es : List (DocKey × Doc)}

/-- The entries of a struct's document have the keys of the members that are written, in their
order. -/
theorem keys_of_written
    (hes : ((written env memberOrder d (lowerFields env traits memberOrder d.fields vs)).map
      (DocMember.entry env traits d)).mapM id = some es) :
    es.map (fun e => wireKey e.1) = (writtenFields env d vs).map (memberKey d) := by
  have hentries := mapM_id_eq_some.1 hes
  have hfields : (written env memberOrder d (lowerFields env traits memberOrder d.fields vs)).map
    DocMember.field =
      writtenFields env d vs := by
    unfold written writtenFields
    rw [List.map_filterMap]
    refine List.filterMap_congr fun i _ => Option.ext fun g => ?_
    rw [Option.map_eq_some_iff, Option.bind_eq_some_iff]
    constructor
    · rintro ⟨m, hm, rfl⟩
      obtain ⟨hget, hemitted⟩ := Option.filter_eq_some_iff.1 hm
      obtain ⟨f, v, hf, hv, rfl⟩ := getElem?_lowerFields.1 hget
      exact ⟨f, hf, Option.bind_eq_some_iff.2 ⟨v, hv, if_pos hemitted⟩⟩
    · rintro ⟨f, hf, hw⟩
      obtain ⟨v, hv, hw⟩ := Option.bind_eq_some_iff.1 hw
      obtain ⟨hwritten, hg⟩ := Option.ite_none_right_eq_some.1 hw
      cases hg
      exact ⟨_, Option.filter_eq_some_iff.2 ⟨getElem?_lowerFields.2 ⟨g, v, hf, hv, rfl⟩, hwritten⟩,
        rfl⟩
  rw [← hfields, List.map_map]
  have hkeys : ∀ (ms : List DocMember) (es : List (DocKey × Doc)),
    ms.map (DocMember.entry env traits d) = es.map some →
      es.map (fun e => wireKey e.1) = ms.map (memberKey d ∘ DocMember.field) := by
    intro ms
    induction ms with
    | nil =>
      intro es h
      cases es with
      | nil => rfl
      | cons e es => cases h
    | cons m ms ih =>
      intro es h
      cases es with
      | nil => cases h
      | cons e es =>
        obtain ⟨hentry, hrest⟩ := List.cons.inj h
        obtain ⟨x, -, rfl⟩ := Option.map_eq_some_iff.1 hentry
        rw [List.map_cons, List.map_cons, ih es hrest, Function.comp_apply, wireKey_keyOf]
  exact hkeys _ es hentries

/-- The map of a struct: its entries follow each other as they are written, none of them
buffered. -/
theorem encodeStruct_writes {o : Options} {w w' : Writer} (hmap : d.transparent = false)
    (hrun : encodeStruct env (sink o) d [] [] (encodeFields env (sink o) d.fields vs) w =
      .ok () w') :
    ∃ kvs : List (Bytes × Bytes), w' = (w.bump 1).append (membersBytes o kvs.length kvs) ∧
      kvs.map Prod.fst = (writtenFields env d vs).map (memberKey d) := by
  have hfields := @renders_encodeFields _ env (sink o) d.fields vs
  have hrenders :=
    @renders_encodeStruct _ env (sink o) d [] [] _ _ (fun m hm => field_of_mem_encodeFields hm)
    hfields
  obtain ⟨m, hm, hemit⟩ := hrenders.ok_iff.1 hrun
  obtain ⟨doc, hdoc, rfl⟩ := Option.map_eq_some_iff.1 hm
  unfold lowerStruct at hdoc
  rw [if_neg (by rw [hmap]; exact Bool.false_ne_true)] at hdoc
  obtain ⟨es, hes, hdoc⟩ := Option.bind_eq_some_iff.1 hdoc
  cases hdoc
  have hlen : es.length =
    ((lowerFields env traits memberOrder d.fields vs).filter (DocMember.emitted env)).length := by
    rw [length_mapM_id hes, List.length_map]
    exact written_length (memberOrder_perm d) (length_lowerFields _ vs)
  obtain ⟨-, -, rfl⟩ := (outcome_emit w _).of_run hemit
  refine ⟨wireEntries o es, ?_, ?_⟩
  · rw [wireEntries_eq, List.length_map, hlen, ← wireEntries_eq]
    rfl
  · rw [map_fst_wireEntries]
    exact keys_of_written hes

end

/-- The frame that a struct is written into is not buffered. -/
theorem beginMapOrdered_unbuffered {o : Options} {n : Nat} {w w' : Writer}
    (hrun : beginMapOrdered o (some n) w = .ok () w') :
    ∃ f ∈ w'.frames.head?, f.buffered = false := by
  obtain ⟨_, w₁, -, hrun⟩ := Run.bind_eq_ok.1 hrun
  by_cases hdef : o.deterministic = true ∨ ¬ o.indefinite = true
  · rw [if_pos hdef] at hrun
    unfold openOrdered at hrun
    simp only at hrun
    split at hrun
    · cases hrun
    · cases hrun
      exact ⟨_, rfl, rfl⟩
  · rw [if_neg hdef] at hrun
    unfold openFrame at hrun
    simp only at hrun
    split at hrun
    · cases hrun
    · split at hrun
      · rename_i hdet
        exact absurd (.inl hdet) hdef
      · split at hrun
        · cases hrun
          exact ⟨_, rfl, rfl⟩
        · cases hrun
          exact ⟨_, rfl, rfl⟩

/-! ### The check of the reader -/

section

variable {D : Options} {inp : Bytes} {s : State} {c : MapCursor}

/-- A key that follows the recorded one is not refused, whether the look-ahead can skip it or leaves
it to the decoder. -/
theorem keyAhead_passes {k : DocKey} {r : Bytes} (hk : FitsKey k)
    (hin : inp.drop s.pos = wireKey k ++ r) (hsize : inp.length < 2 ^ 48)
    (hdepth : s.depth < 2 ^ 16) (hprev : ∀ p ∈ c.prevKey inp, p < wireKey k) :
    ∃ c' t, MapCursor.keyAhead D inp c s = .ok (true, c') t ∧ Same s t ∧
      (c'.prevKey inp = c.prevKey inp ∨ c'.prevKey inp = some (wireKey k)) := by
  rw [← keyItem_bytes hk] at hin hprev ⊢
  have hpos : s.pos < 2 ^ 48 := (drop_pos hin).trans hsize
  unfold MapCursor.keyAhead
  cases hdet : D.requireDeterministic with
  | false => exact ⟨c, s, rfl, ⟨rfl, rfl⟩, .inl rfl⟩
  | true =>
    rw [if_pos rfl]
    cases hskip : skipValue D inp s with
    | error e s' =>
      refine ⟨c, s'.restore s.save, rfl, ?_, .inl rfl⟩
      rw [restore_save hpos hdepth]
      exact ⟨rfl, rfl⟩
    | ok u s' =>
      obtain ⟨x, r', hx, hin', rfl⟩ := skipValue_ok_iff.1 hskip
      have hlax : Sat LaxNode 0 0 (keyItem k) :=
        (written_key (o := { maxDepth := 0 }) hk 0).imp fun _ h => h.1
      obtain rfl := (hlax.unambiguous _ _ _ _ _ hx.lax (hin.symm.trans hin')).1
      have hcur : subspan inp s.pos (s.advance (keyItem k).bytes.length).pos = (keyItem k).bytes :=
        subspan_eq hin
      simp only [hcur, c.order_eq_none.2 hprev]
      rw [restore_save hpos hdepth]
      refine ⟨_, _, rfl, ⟨rfl, rfl⟩, .inr ?_⟩
      rw [MapCursor.prevKey, if_pos rfl]
      exact congrArg some hcur

end

/-- The order check of the readers, on keys as they follow each other: no key is refused behind an
earlier one, and the look-ahead of the map cursor, which has recorded none but earlier ones, goes on
with every key. -/
structure KeysPass (keys : List Bytes) : Prop where
  compared : keys.Pairwise fun prev cur => ∀ start, keyOrderError cur prev start = none
  ahead : ∀ (D : Options) (inp : Bytes) (s : State) (c : MapCursor) (i : Nat) (k r : Bytes),
    keys[i]? = some k →
    inp.length < 2 ^ 48 → s.depth < 2 ^ 16 → inp.drop s.pos = k ++ r →
      (∀ p ∈ c.prevKey inp, p ∈ keys.take i) →
    ∃ c' t, MapCursor.keyAhead D inp c s = .ok (true, c') t ∧ Same s t ∧
      ∀ p ∈ c'.prevKey inp, p ∈ keys.take (i + 1)

theorem keysPass {d : StructDef} (hd : DistinctKeys d) {fs : List Field}
    (hfs : ∀ f ∈ fs, f ∈ d.fields) (hascend : (fs.map (memberKey d)).Pairwise (· < ·)) :
      KeysPass (fs.map (memberKey d)) where
  compared := hascend.imp fun h _ => (keyOrderError_eq_none _ _ _).2 h
  ahead D inp s c i k r hi hsize hdepth hin hprev := by
    obtain ⟨hlt, rfl⟩ := List.getElem?_eq_some_iff.1 hi
    have hlen : i < fs.length := by rwa [List.length_map] at hlt
    have hmem : fs[i] ∈ d.fields := hfs _ (List.getElem_mem _)
    have htake : (fs.map (memberKey d)).take (i + 1) =
      (fs.map (memberKey d)).take i ++ [(fs.map (memberKey d))[i]] :=
      (List.take_append_getElem hlt).symm
    have hsorted : ((fs.map (memberKey d)).take (i + 1)).Pairwise (· < ·) :=
      hascend.sublist (List.take_sublist _ _)
    rw [htake, List.pairwise_append] at hsorted
    have hless : ∀ p ∈ c.prevKey inp, p < (fs.map (memberKey d))[i] := fun p hp =>
      hsorted.2.2 p (hprev p hp) _ (List.mem_singleton_self _)
    rw [List.getElem_map, ← wireKey_keyOf] at hin hless
    obtain ⟨c', t, hrun, hsame, hkey⟩ := keyAhead_passes (hd.fitsKey hmem) hin hsize hdepth hless
    refine ⟨c', t, hrun, hsame, fun p hp => ?_⟩
    rw [htake, List.mem_append, List.mem_singleton]
    rcases hkey with hkey | hkey
    · exact .inl (hprev p (hkey ▸ hp))
    · rw [hkey, wireKey_keyOf] at hp
      refine .inr ?_
      rw [List.getElem_map]
      exact (Option.mem_some_iff.1 hp).symm

/-- The members of a struct with distinct keys, in the order of `member_order`, have ascending keys.
Whichever of them are written, the map has exactly their keys in that order, written as they come,
and passes the order check of a strict reader. -/
theorem member_order_ascends (env : Env) (d : StructDef) (hd : DistinctKeys d) :
    (memberOrder d).Perm (List.range d.fields.length) ∧
      ((orderedFields d).map (memberKey d)).Pairwise (· < ·) ∧
    (∀ (o : Options) (n : Nat) (w w' : Writer), beginMapOrdered o (some n) w = .ok () w' →
      ∃ f ∈ w'.frames.head?, f.buffered = false) ∧
    (d.transparent = false → ∀ (o : Options) (vs : List Val) (w w' : Writer),
      encodeStruct env (sink o) d [] [] (encodeFields env (sink o) d.fields vs) w = .ok () w' →
      ∃ kvs : List (Bytes × Bytes), w' = (w.bump 1).append (membersBytes o kvs.length kvs) ∧
        kvs.map Prod.fst = (writtenFields env d vs).map (memberKey d) ∧
          (kvs.map Prod.fst).Pairwise (· < ·) ∧
        KeysPass (kvs.map Prod.fst)) := by
  refine ⟨memberOrder_perm d, hd.ascend, fun o n w w' => beginMapOrdered_unbuffered,
    fun hmap o vs w w' hrun => ?_⟩
  obtain ⟨kvs, hbytes, hkeys⟩ := encodeStruct_writes hmap hrun
  have hascend : ((writtenFields env d vs).map (memberKey d)).Pairwise (· < ·) :=
    hd.ascend.sublist ((writtenFields_sublist env d vs).map _)
  have hfields : ∀ f ∈ writtenFields env d vs, f ∈ d.fields := fun f hf => by
    obtain ⟨i, -, hi⟩ := List.mem_filterMap.1 ((writtenFields_sublist env d vs).subset hf)
    exact List.mem_of_getElem? hi
  refine ⟨kvs, hbytes, hkeys, ?_, ?_⟩
  · rwa [hkeys]
  · rw [hkeys]
    exact keysPass hd hfields hascend

/-- A name between a negative and a positive key. -/
def mixedKeys : StructDef where
  name := str "S"
  fields := [
    { info := { isMember := true, key := some (-1) }, ty := .bool, wireName := str "x",
      required := true, initial := .bool false },
    { info := { isMember := true }, ty := .bool, wireName := str "name", required := true,
      initial := .bool false },
    { info := { isMember := true, key := some 24 }, ty := .bool, wireName := str "y",
      required := true, initial := .bool false }]

theorem distinctKeys_mixed : DistinctKeys mixedKeys where
  names := by decide
  keys := by decide
  integers f hf k hk := by
    have hkeys : k ∈ mixedKeys.fields.filterMap (integerKey mixedKeys) :=
      List.mem_filterMap.2 ⟨f, hf, hk⟩
    rw [show mixedKeys.fields.filterMap (integerKey mixedKeys) = [-1, 24] by decide, List.mem_cons,
      List.mem_singleton] at hkeys
    unfold Int64Range
    omega
  sizes := by decide

theorem member_order_ascends_mixed : ∃ kvs : List (Bytes × Bytes),
    kvs.map Prod.fst = (writtenFields default mixedKeys [.bool true, .bool true, .bool true]).map
      (memberKey mixedKeys) ∧
      KeysPass (kvs.map Prod.fst) := by
  obtain ⟨kvs, -, hkeys, -, hpass⟩ :=
    (member_order_ascends default mixedKeys distinctKeys_mixed).2.2.2 rfl {}
    [.bool true, .bool true, .bool true] {}
      { out := [0xA3, 0x18, 24, 0xF5, 0x20, 0xF5, 0x64] ++ str "name" ++ [0xF5] } (by rfl)
  exact ⟨kvs, hkeys, hpass⟩

example : (orderedFields mixedKeys).map
    (memberKey mixedKeys) = [[0x18, 24], [0x20], 0x64 :: str "name"] := by decide

end VCodec.Cbor
