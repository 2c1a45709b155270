import VCodec.Cbor.Bulk
import VCodec.Core.Lands

/-!
# Documents in front of the CBOR reader

The CBOR reader keeps the laws that construction at the type of a value is followed by: the item of
a document lies ahead, and every operation finds there what the document has.
-/

namespace VCodec.Cbor

/-! ### The format -/

/-- The entries of a map in the order of their encoded keys. -/
def sortDocs (es : List (DocKey × Doc)) : List (DocKey × Doc) :=
  es.insertionSort fun a b => wireKey a.1 ≤ wireKey b.1

/-- A key of a document, as it is read. -/
def shownKey : DocKey → EntryKey
  | .text k | .name k => .text k
  | .uint n => .int n
  | .sint i | .intName i => .int i

/-- The string is not cut into chunks. -/
def unchunked (o : Options) (f : FieldMeta) : Bool :=
  ¬ (f.indefinite = true ∧ ¬ o.deterministic = true)

/-- What the reader makes of what a writer with these options has written. -/
def format (o : Options) : Format where
  traits := traits
  order := memberOrder
  arrange es := if o.deterministic then sortDocs es else es
  shown := shownKey
  real f x := some (floatBack x (f.floatWidth.getD o.floats))
  aliasesText f _ := unchunked o f
  aliasesBytes f _ := unchunked o f
  aliasesKey _ := true

theorem sortDocs_perm (es : List (DocKey × Doc)) : (sortDocs es).Perm es :=
  List.perm_insertionSort _ _

/-- Entries whose keys stand in order stay where they are. -/
theorem sortDocs_of_keys {es : List (DocKey × Doc)}
    (h : (sortDocs es).map Prod.fst = es.map Prod.fst) :
    sortDocs es = es := by
  have hsorted : (sortDocs es).Pairwise fun a b => wireKey a.1 ≤ wireKey b.1 :=
    List.pairwise_insertionSort _ _
  have hkeys : ((sortDocs es).map Prod.fst).Pairwise fun a b => wireKey a ≤ wireKey b :=
    List.pairwise_map.2 hsorted
  rw [h, List.pairwise_map] at hkeys
  exact hkeys.insertionSort_eq

theorem memberOrder_perm (d : StructDef) :
    (memberOrder d).Perm (List.range d.fields.length) := List.perm_insertionSort _ _

theorem isBytes_types {f : FieldMeta} {t : Ty} (h : isBytes f t = true) :
    (∃ rg, t = .byteRange rg) ∨ contiguousOfUint8 t = true := by
  by_cases hrange : ∃ rg, t = .byteRange rg
  · exact .inl hrange
  · have heq : isBytes f t = (contiguousOfUint8 t && f.byteString) := by
      cases t <;> first | rfl | exact absurd ⟨_, rfl⟩ hrange
    rw [heq, Bool.and_eq_true_iff] at h
    exact .inr h.1

variable {o D : Options} {inp : Bytes} {s u : State}

theorem docEntries_sort {es : List (DocKey × Doc)} (h : FitsEntries es) :
    docEntries o (sortDocs es) = sortEntries (docEntries o es) := by
  have hes := fitsEntries_iff.1 h
  rw [docEntries_eq, docEntries_eq]
  refine List.map_insertionSort _ _ _ _ fun a ha b hb => ?_
  rw [docEntry, docEntry, keyItem_bytes (hes a ha).1, keyItem_bytes (hes b hb).1]

/-! ### Places -/

/-- The document lies between the two places. -/
structure DocAt (o D : Options) (inp : Bytes) (d : Doc) (s u : State) : Prop where
  fits : Fits d
  lies : Lies D inp (docItem o d) s u

structure KeyAt (D : Options) (inp : Bytes) (k : DocKey) (s u : State) : Prop where
  fits : FitsKey k
  lies : Lies D inp (keyItem k) s u

structure DocsAt (o D : Options) (inp : Bytes) (c : SeqCursor) (ds : List Doc) (s u : State) :
    Prop where
  fits : FitsEach ds
  rest : Rest D inp c.remaining ds.length (docItems o ds) s u

structure EntriesAt (o D : Options) (inp : Bytes) (c : MapCursor) (es : List (DocKey × Doc))
    (s u : State) : Prop where
  fits : FitsEntries es
  entries : Entries D inp c (docEntries o es) s u

/-- The options under which the reader takes what a writer may write. -/
structure Takes (D : Options) : Prop where
  errors : D.errors = .failFast
  utf8 : D.validateUtf8 = true
  tags : D.ignoreUnknownTags = true
  ranges : D.acceptTypedArrays = true

/-! ### Operations -/

theorem front_plain {d : Doc} (h : d.Plain) : (docItem o d).front.1 ≠ .tag := by
  have hint : ∀ i : Int, (intItem i).front.1 ≠ .tag := by
    intro i
    unfold intItem
    split <;> exact nofun
  have hstr : ∀ (isText indefinite : Bool) (t : Bytes),
    (strItem o isText indefinite t).front.1 ≠ .tag := by
    intro isText indefinite t
    unfold strItem
    split <;> cases isText <;> exact nofun
  cases d with
  | sint f i => exact hint i
  | text f t | bytes f t => exact hstr _ _ t
  | tag n d | range t v => exact h.elim
  | _ => exact nofun

theorem bare_docItem (d : Doc) : (docItem o d).bare = (docItem o d.bare).bare := by
  induction d using Doc.bare.induct with
  | case1 n d ih => exact ih
  | case2 d hd =>
    have hbare : d.bare = d := by
      cases d <;> first | rfl | exact absurd rfl (hd _ _)
    rw [hbare]

theorem bare_ne_tag (d : Doc) (n : Nat) (e : Doc) : d.bare ≠ .tag n e := by
  induction d using Doc.bare.induct with
  | case1 m d ih => exact ih
  | case2 d hd =>
    have hbare : d.bare = d := by
      cases d <;> first | rfl | exact absurd rfl (hd _ _)
    rw [hbare]
    exact hd n e

/-- The head of a float is peeked at as one. -/
theorem kindOf_float {h : Head} (hai : 25 ≤ h.ai ∧ h.ai ≤ 27) :
    kindOf D (frontHead (.leaf .simple h)) = .real := by
  show (if h.ai = 20 ∨ h.ai = 21 then Kind.boolean else if h.ai = 22 then .null
    else if h.ai = 23 then (if D.undefinedAsNull then .null else .undefined)
    else if 25 ≤ h.ai ∧ h.ai ≤ 27 then .real else .undefined) = .real
  rw [if_neg (by omega), if_neg (by omega), if_neg (by omega), if_pos hai]

theorem kindOf_int (i : Int) :
    kindOf D (frontHead (intItem i)) = .uint ∨ kindOf D (frontHead (intItem i)) = .sint := by
  unfold intItem
  split
  · exact .inl rfl
  · exact .inr rfl

theorem kindOf_container (isMap : Bool) (count : Option Head) (xs : List Item) :
    kindOf D (frontHead (.container isMap count xs)) ≠ .null := by
  cases count <;> cases isMap <;> exact nofun

/-- Only a null is peeked at as one. -/
theorem kindOf_null (d : Doc) : kindOf D (frontHead (docItem o d).bare) = .null ↔
    d.bare = .null := by
  have hstr : ∀ (isText indefinite : Bool) (t : Bytes),
    kindOf D (frontHead (strItem o isText indefinite t).bare) ≠ .null := by
    intro isText indefinite t
    unfold strItem
    split <;> cases isText <;> exact nofun
  rw [bare_docItem]
  have htag := bare_ne_tag d
  generalize d.bare = e at htag
  cases e with
  | null => exact iff_of_true rfl rfl
  | boolean b =>
    refine iff_of_false ?_ nofun
    cases b <;> exact nofun
  | sint f i =>
    have hbare : (intItem i).bare = intItem i := by unfold intItem; split <;> rfl
    refine iff_of_false (fun h => ?_) nofun
    rw [docItem, hbare] at h
    rcases kindOf_int (D := D) i with hkind | hkind <;> rw [hkind] at h <;> cases h
  | real f x =>
    refine iff_of_false (fun h => ?_) nofun
    have hkind := (kindOf_float (D := D) (floatHead_ai x (f.floatWidth.getD o.floats))).symm.trans h
    cases hkind
  | text f t | bytes f t => exact iff_of_false (hstr _ _ t) nofun
  | tag n e => exact absurd rfl (htag n e)
  | array f n ds | map f n es | members n es => exact iff_of_false (kindOf_container _ _ _) nofun
  | _ => exact iff_of_false nofun nofun

namespace DocAt

variable {d : Doc} {s u : State}

theorem sint {f : FieldMeta} {i : Int} (h : DocAt o D inp (.sint f i) s u) : KeyAt D inp
    (.sint i) s u := ⟨h.fits, h.lies⟩

end DocAt

/-- An integer is read by the reader of its sign. -/
theorem KeyAt.sint {i : Int} {s u : State} (h : KeyAt D inp (.sint i) s u) :
    ∃ t, expectSint D inp s = .ok i t ∧ Same t u := by
  obtain ⟨hlo, hhi⟩ : Int64Range i := h.fits
  have hlies : Lies D inp (intItem i) s u := h.lies
  unfold intItem at hlies
  split at hlies
  · have hnonneg : 0 ≤ i := by assumption
    have hvalue : (headOf i.toNat).value = i.toNat := headOf_value (by omega)
    obtain ⟨t, ht, hsame⟩ := hlies.expectSint_uint (by rw [hvalue, int64Max]; omega)
    rw [hvalue, Int.toNat_of_nonneg hnonneg] at ht
    exact ⟨t, ht, hsame⟩
  · have hneg : ¬ 0 ≤ i := by assumption
    have hvalue : (headOf (-1 - i).toNat).value = (-1 - i).toNat := headOf_value (by omega)
    obtain ⟨t, ht, hsame⟩ := hlies.expectSint_nint (by rw [hvalue, int64Max]; omega)
    rw [hvalue, show -1 - ((-1 - i).toNat : Int) = i by omega] at ht
    exact ⟨t, ht, hsame⟩

/-- A string is read whole, from one piece or from chunks. -/
theorem text_at {indefinite : Bool} {x : Bytes} {s u : State}
    (h : Lies D inp (strItem o true indefinite x) s u) :
    ∃ ref t, expectText D inp s = .ok ref t ∧ Same t u ∧ ref.text = x ∧
      ref.borrowed = decide (¬ (indefinite = true ∧ ¬ o.deterministic = true)) := by
  unfold strItem at h
  split at h
  · rename_i hchunks
    obtain ⟨ref, t, hrun, hsame, htext, hborrowed⟩ := h.expectText_chunks
    exact ⟨ref, t, hrun, hsame, htext.trans (chunkList_payload le_rfl),
      by rw [hborrowed, decide_eq_false (not_not.2 hchunks)]⟩
  · rename_i hchunks
    obtain ⟨ref, t, hrun, hsame, htext, hborrowed⟩ := h.expectText
    exact ⟨ref, t, hrun, hsame, htext, by rw [hborrowed, decide_eq_true hchunks]⟩

theorem bytes_at {indefinite : Bool} {x : Bytes} {s u : State}
    (h : Lies D inp (strItem o false indefinite x) s u) :
    ∃ ref t, expectBytes D inp s = .ok ref t ∧ Same t u ∧ ref.bytes = x ∧
      ref.borrowed = decide (¬ (indefinite = true ∧ ¬ o.deterministic = true)) := by
  unfold strItem at h
  split at h
  · rename_i hchunks
    obtain ⟨t, hrun, hsame⟩ := h.expectBytes_chunks
    exact ⟨_, t, hrun, hsame, chunkList_payload le_rfl, (decide_eq_false (not_not.2 hchunks)).symm⟩
  · rename_i hchunks
    obtain ⟨t, hrun, hsame⟩ := h.expectBytes
    exact ⟨_, t, hrun, hsame, rfl, (decide_eq_true hchunks).symm⟩

/-- The bulk form of a range is read into the range. -/
theorem readRange_at {env : Env} {f : FieldMeta} (hd : D.acceptTypedArrays = true) {t : Ty}
    {v : Val} {s u : State} (hat : DocAt o D inp (.range t v) s u)
    (ht : typedArrayRange t = true) (hv : Proper env f t v) {old : Val} (hold : Shaped env t old) :
    ∃ w, readRange env D inp t { reader := s, out := old } = .ok true { reader := w, out := v } ∧
      Same w u := by
  have htag : 64 ≤ typedArrayTag (rangeShape t).1 ∧ typedArrayTag (rangeShape t).1 ≠ 76 := by
    cases t with
    | seq kind t =>
      cases kind with
      | vector => exact typedArrayTag_bounds ht
      | _ => cases ht
    | array n t => exact typedArrayTag_bounds ht
    | _ => cases ht
  have hmax := typedArrayTag_lt (rangeShape t).1
  have hvalue : (headOf (typedArrayTag (rangeShape t).1)).value = typedArrayTag (rangeShape t).1 :=
    headOf_value (by omega)
  have hlies : Lies D inp (.tag (headOf (typedArrayTag (rangeShape t).1))
    (.str false (headOf (rangeData t v).length) (rangeData t v))) s u := hat.lies
  obtain ⟨w, hrange, hsame⟩ := hlies.rangeBytes (by omega) (by omega) (by omega)
  rw [hvalue] at hrange
  refine ⟨w, ?_, hsame⟩
  unfold readRange
  rw [if_neg (not_not.2 hd), call_bind (b := { reader := s, out := old }) hrange]
  show (do
    typedArrayInto env (typedArrayTag (rangeShape t).1) (rangeData t v) t s.pos
    return true : VCodec.D State Bool) { reader := w, out := old } = _
  rw [Run.bind_of_ok (typedArrayInto_at ht hv s.pos hold)]
  rfl

/-! ### Integer keys -/

theorem shown_nonneg {k : DocKey} {n : Nat} (h : KeyAt D inp k s u)
    (hk : shownKey k = .int (Int.ofNat n)) :
    keyItem k = .leaf .uint (headOf n) ∧ n < 2 ^ 64 := by
  cases k with
  | uint m =>
    obtain rfl : m = n := by simpa [shownKey] using hk
    exact ⟨rfl, h.fits⟩
  | sint i | intName i =>
    obtain rfl : i = Int.ofNat n := by simpa [shownKey] using hk
    obtain ⟨-, hhi⟩ : Int64Range (Int.ofNat n) := h.fits
    have hitem : intItem (Int.ofNat n) = .leaf .uint (headOf n) := if_pos (Int.natCast_nonneg n)
    exact ⟨hitem, by simp only [Int.ofNat_eq_natCast] at hhi; omega⟩
  | text x | name x => cases hk

theorem KeyAt.nonneg (ht : Takes D) {k : DocKey} {n : Nat} (h : KeyAt D inp k s u)
    (hk : shownKey k = .int (Int.ofNat n)) :
    peek D inp s = .uint ∧ ∃ t, expectUint D inp s = .ok n t ∧ Same t u := by
  obtain ⟨hitem, hlt⟩ := shown_nonneg h hk
  have hlies := h.lies
  rw [hitem] at hlies
  obtain ⟨t, hrun, hsame⟩ := hlies.expectUint
  rw [headOf_value hlt] at hrun
  exact ⟨hlies.peek (.inl ht.tags), t, hrun, hsame⟩

theorem KeyAt.negative (ht : Takes D) {k : DocKey} {n : Nat} (h : KeyAt D inp k s u)
    (hk : shownKey k = .int (Int.negSucc n)) :
    peek D inp s = .sint ∧ ∃ t, expectSint D inp s = .ok (Int.negSucc n) t ∧ Same t u := by
  have hint : KeyAt D inp (.sint (Int.negSucc n)) s u := by
    cases k with
    | uint m => cases hk
    | sint i | intName i =>
      obtain rfl : i = Int.negSucc n := by simpa [shownKey] using hk
      exact ⟨h.fits, h.lies⟩
    | text x | name x => cases hk
  have hkind : kindOf D (frontHead (intItem (Int.negSucc n)).bare) = .sint := by
    rw [intItem, if_neg (by omega)]
    rfl
  exact ⟨(hint.lies.peek (.inl ht.tags)).trans hkind, hint.sint⟩

/-- The item of an integer key is an integer. -/
theorem intKey {k : DocKey} {i : Int} (hk : shownKey k = .int i) :
    ∃ m h, (m = .uint ∨ m = .nint) ∧ keyItem k = .leaf m h := by
  have hint : ∀ j : Int, ∃ m h, (m = Major.uint ∨ m = .nint) ∧ intItem j = .leaf m h := by
    intro j
    unfold intItem
    split
    · exact ⟨_, _, .inl rfl, rfl⟩
    · exact ⟨_, _, .inr rfl, rfl⟩
  cases k with
  | uint m => exact ⟨_, _, .inl rfl, rfl⟩
  | sint j | intName j => exact hint j
  | text x | name x => cases hk

/-! ### Containers -/

theorem expectArray_at {f : FieldMeta} {n : Option Nat} {ds : List Doc} {s u : State}
    (hat : DocAt o D inp (.array f n ds) s u) :
    ∃ c t, expectArray D inp s = .ok c t ∧ DocsAt o D inp c ds t u := by
  obtain ⟨hlen, hcount, hds⟩ := hat.fits
  have hcounts := arrayCount_eq (o := o) (f := f) hcount
  obtain ⟨t, hrun, hrest⟩ := hat.lies.expectContainer (n := ds.length) (fun h hh => by
    obtain ⟨c, hc, rfl⟩ := Option.map_eq_some_iff.1 hh
    rw [hcounts c hc]
    exact headOf_value (lt64 hlen)) (str "array")
  refine ⟨_, t, ?_, hds, hrest⟩
  unfold expectArray
  rw [Run.bind_of_ok hrun]
  rfl

theorem expectMap_at {count : Option Nat} {xs : List Item} {es : List (DocKey × Doc)}
    {s u : State} (hes : FitsEntries es) (hlen : es.length < 2 ^ 63)
    (hcount : ∀ c ∈ count, c = es.length) (hxs : xs = alternate (docEntries o es))
    (hl : Lies D inp (.container true (count.map headOf) xs) s u) :
    ∃ c t, expectMap D inp s = .ok c t ∧ EntriesAt o D inp c es t u := by
  subst hxs
  obtain ⟨t, hrun, hrest⟩ := hl.expectContainer (n := es.length) (fun h hh => by
    obtain ⟨c, hc, rfl⟩ := Option.map_eq_some_iff.1 hh
    rw [hcount c hc]
    exact headOf_value (lt64 hlen)) (str "map")
  refine ⟨{ remaining := (count.map headOf).map Head.value }, t, ?_, hes, ?_, fun hdet => ?_⟩
  · unfold expectMap
    rw [Run.bind_of_ok hrun]
    exact rfl
  · rw [length_docEntries]
    exact hrest
  · cases hc : count.map headOf with
    | none =>
      have hnode := hl.accepts.node.2.2 hdet
      rw [hc] at hnode
      exact hnode.elim
    | some h =>
      have hnode := hl.accepts.node.2.2 hdet
      rw [hc] at hnode
      exact hnode.2 rfl

theorem EntriesAt.next (ha : Addressable D inp) {c : MapCursor} {k : DocKey} {d : Doc}
    {es : List (DocKey × Doc)} {s u : State} (hat : EntriesAt o D inp c ((k, d) :: es) s u) :
    ∃ c' t t' t'', MapCursor.next D inp c s = .ok (true, c') t ∧ KeyAt D inp k t t' ∧
      DocAt o D inp d t' t'' ∧
      EntriesAt o D inp c' es t'' u := by
  obtain ⟨hk, hd, hes⟩ := hat.fits
  obtain ⟨c', t, t', t'', hrun, hkey, hdoc, hrest⟩ := MapCursor.next_at ha hat.entries
  exact ⟨c', t, t', t'', hrun, ⟨hk, hkey⟩, ⟨hd, hdoc⟩, hes, hrest⟩

/-! ### The laws -/

/-- The reader finds the parts of a document where its item has them. -/
def docLaws (env : Env) (o : Options) (ha : Addressable D inp) (ht : Takes D) :
    DocLaws env (format o) (reader env D inp) where
  Same := Same
  At := DocAt o D inp
  InSeq := DocsAt o D inp
  InMap := EntriesAt o D inp
  AtKey := KeyAt D inp
  traits := rfl
  errors := ht.errors
  isBytes := isBytes_types
  same_refl := Same.refl
  same_trans := Same.trans
  at_same hs h := ⟨h.fits, h.lies.same hs⟩
  inSeq_same hs h := ⟨h.fits, h.rest.same hs⟩
  inMap_same hs h := ⟨h.fits, h.entries.rest.same hs, h.entries.ascend⟩
  atKey_same hs h := ⟨h.fits, h.lies.same hs⟩
  offset s := ⟨_, s, rfl, rfl, rfl⟩
  peek {d s u} h := ⟨_, s, rfl, ⟨rfl, rfl⟩, h.lies.peek (.inl ht.tags) ▸ kindOf_null d⟩
  peek_sint {f i s u} _ h := by
    have hbare : (intItem i).bare = intItem i := by unfold intItem; split <;> rfl
    have hkind := h.lies.peek (.inl ht.tags)
    rw [docItem, hbare] at hkind
    exact ⟨_, s, rfl, ⟨rfl, rfl⟩, hkind ▸ kindOf_int i⟩
  peek_real {f x s u} _ h := by
    have hkind := h.lies.peek (.inl ht.tags)
    rw [docItem, Item.bare.eq_def,
      kindOf_float (floatHead_ai x (f.floatWidth.getD o.floats))] at hkind
    exact ⟨_, s, rfl, ⟨rfl, rfl⟩, hkind ▸ nofun⟩
  null {d s u} h hnull := by
    have hbare : (docItem o d).bare = .leaf .simple (headOf 22) := by
      rw [bare_docItem, hnull]
      rfl
    exact h.lies.expectNull ht.tags hbare (by decide)
  boolean {x s u} h := by
    cases x with
    | false => exact h.lies.expectBoolean (.inl rfl)
    | true => exact h.lies.expectBoolean (.inr rfl)
  uint {f n s u} h := by
    obtain ⟨t, hrun, hsame⟩ := h.lies.expectUint
    rw [headOf_value h.fits] at hrun
    exact ⟨t, hrun, hsame⟩
  sint h := h.sint.sint
  real {f x s u y} h hy := by
    cases hy
    exact h.lies.expectReal (floatHead_ai _ _)
  real_none _ h := nomatch h
  text h := text_at h.lies
  bytes h := bytes_at h.lies
  tags_nil _ := rfl
  tags_cons {n d s u} h := by
    have hcons := h.lies.expectTags_cons
    rw [headOf_value h.fits.1] at hcons
    exact ⟨_, ⟨h.fits.2, h.lies.tagged⟩, hcons⟩
  tags_none {f t d s u} h hd hne w := by
    obtain ⟨n, ts, hts⟩ := List.exists_cons_of_ne_nil hne
    rw [hts]
    exact h.lies.expectTags_ne (front_plain hd) n ts w
  range {f t v s u} h hbulk hv old hold :=
    readRange_at ht.ranges h
      (Bool.and_eq_true_iff.1 (show (f.typedArray && typedArrayRange t) = true from hbulk)).2 hv
      hold
  no_range {d s u} h hd t old := by
    refine ⟨s, ?_, rfl, rfl⟩
    show readRange env D inp t { reader := s, out := old } = _
    unfold readRange
    rw [if_neg (not_not.2 ht.ranges),
      call_bind (b := { reader := s, out := old }) (h.lies.rangeBytes_none (front_plain hd))]
    rfl
  array := expectArray_at
  next_more {c d ds s u} h := by
    have hnext : Rest D inp c.remaining ((docItems o ds).length + 1) (docItem o d :: docItems o ds)
      s u := by
      rw [length_docItems]
      exact h.rest
    obtain ⟨c', hrun, hlies, hrest⟩ := SeqCursor.next_at hnext
    rw [length_docItems] at hrest
    exact ⟨c', _, _, hrun, ⟨h.fits.1, hlies⟩, h.fits.2, hrest⟩
  next_done h := SeqCursor.next_end h.rest
  arrange_perm es := by
    show (if o.deterministic then sortDocs es else es).Perm es
    split
    · exact sortDocs_perm es
    · exact .refl _
  arrange_keys es h := by
    revert h
    show (if o.deterministic then sortDocs es else es).map Prod.fst = _ →
      (if o.deterministic then sortDocs es else es) = es
    split
    · exact sortDocs_of_keys
    · exact fun _ => rfl
  map {f n es s u} h := by
    obtain ⟨hlen, hcount, hes⟩ := h.fits
    have hperm : (if o.deterministic then sortDocs es else es).Perm es := by
      split
      · exact sortDocs_perm es
      · exact .refl _
    refine expectMap_at (fitsEntries_iff.2 fun e he => fitsEntries_iff.1 hes e (hperm.mem_iff.1 he))
      (hperm.length_eq ▸ hlen) (fun c hc => ?_) ?_ h.lies
    · show c = (if o.deterministic then sortDocs es else es).length
      rw [hperm.length_eq]
      split at hc
      · exact (Option.mem_some_iff.1 hc).symm
      · exact laxCount_eq hcount hc
    · show _ = alternate (docEntries o (if o.deterministic then sortDocs es else es))
      split
      · rw [docEntries_sort hes]
      · rfl
  members {n es s u} h := by
    obtain ⟨hlen, rfl, hes⟩ := h.fits
    refine expectMap_at hes hlen (fun c hc => ?_) rfl h.lies
    split at hc
    · exact (Option.mem_some_iff.1 hc).symm
    · cases hc
  key_more h := h.next ha
  key_done h := MapCursor.next_end h.entries
  key_kind {k s u x} h hk := by
    cases k with
    | text y | name y =>
      exact ⟨s, congrArg (EStateM.Result.ok · s) (h.lies.peek (.inl ht.tags)), rfl, rfl⟩
    | _ => cases hk
  key_text {k s u x} h hk := by
    cases k with
    | text y | name y =>
      cases hk
      exact h.lies.expectText
    | _ => cases hk
  key_uint h hk := by
    obtain ⟨hkind, hrun⟩ := h.nonneg ht hk
    exact ⟨⟨_, congrArg (EStateM.Result.ok · _) hkind, rfl, rfl⟩, hrun⟩
  key_sint h hk := by
    obtain ⟨hkind, hrun⟩ := h.negative ht hk
    exact ⟨⟨_, congrArg (EStateM.Result.ok · _) hkind, rfl, rfl⟩, hrun⟩
  key_int h hk ref t := by
    obtain ⟨m, hd, hm, hitem⟩ := intKey hk
    have hlies := h.lies
    rw [hitem] at hlies
    refine hlies.expectText_ne ?_ ?_ ref t
    · rcases hm with rfl | rfl <;> exact nofun
    · rcases hm with rfl | rfl <;> exact nofun
  shown_text _ := rfl
  shown_name _ := rfl
  shown_intName _ := rfl
  shown_uint _ := .inl rfl
  shown_sint _ := .inl rfl
  order_perm := memberOrder_perm
  skip h := h.lies.skipValue
  restore h t := h.lies.restore ha t

end VCodec.Cbor
