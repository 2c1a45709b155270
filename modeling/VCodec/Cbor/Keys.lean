import VCodec.Cbor.Tagged
import VCodec.Core.Keys

/-!
# Keys of struct entries

Which member the key of an entry leads to under CBOR: an integer to the member with that key, a text
to the member with that name, unless an integer stands for the name, and always to the member with
that alias. The decoder reads the key, and goes on with that member or with an unknown one.
-/

namespace VCodec.Cbor

open D

variable {env : Env} {D : Options} {inp : Bytes} {s : StructDef} {x : Item} {st u : State}
    {out : Val}

/-! ### Reading a key -/

/-- The key that an item is. -/
def Item.key (x : Item) : Option EntryKey :=
  match x.bare with
  | .leaf .uint h => some (.int h.value)
  | .leaf .nint h => some (.int (-1 - h.value))
  | y => y.readText.map .text

/-- The integers that the decoder takes for what they are, and those above them. -/
def readAs : EntryKey → Except Nat EntryKey
  | .int k => if int64Max < k then .error k.toNat else .ok (.int k)
  | .text k => .ok (.text k)

theorem int_of_key {k : Int} (hx : x.key = some (.int k)) :
    ∃ h : Head, (x.bare = .leaf .uint h ∧ k = h.value) ∨
      (x.bare = .leaf .nint h ∧ k = -1 - (h.value : Int)) := by
  unfold Item.key at hx
  split at hx
  · rename_i h hbare
    exact ⟨h, .inl ⟨hbare, by cases hx; rfl⟩⟩
  · rename_i h hbare
    exact ⟨h, .inr ⟨hbare, by cases hx; rfl⟩⟩
  · obtain ⟨b, -, hb⟩ := Option.map_eq_some_iff.1 hx
    cases hb

theorem text_of_key {b : Bytes} (hx : x.key = some (.text b)) : x.readText = some b := by
  unfold Item.key at hx
  split at hx
  · cases hx
  · cases hx
  · obtain ⟨b', hread, hb⟩ := Option.map_eq_some_iff.1 hx
    cases hb
    rw [← x.readText_bare]
    exact hread

theorem kind_of_text {b : Bytes} (htag : x.bare.front.1 ≠ .tag) (hx : x.readText = some b) :
    kindOf D (frontHead x.bare) = .text := by
  rw [← x.readText_bare] at hx
  unfold kindOf
  rw [frontHead_mt]
  generalize x.bare = y at htag hx
  cases y with
  | str isText h c | chunked isText cs =>
    cases isText with
    | true => rfl
    | false => cases hx
  | tag h y => exact absurd rfl htag
  | leaf m h | container m h ys => cases hx

/-- Where an item is the key of an entry, the decoder reads it. -/
theorem readEntryKey_at (hl : Lies D inp x st u) (hreach : D.ignoreUnknownTags = true ∨ x.bare = x)
    {key : EntryKey} (hx : x.key = some key)
    (hint : ∀ k, key = .int k → s.intKeys traits ≠ [] ∧ -2 ^ 63 ≤ k) :
    ∃ t, Same t u ∧ readEntryKey (reader env D inp) s { reader := st, out := out } =
      .ok (readAs key) { reader := t, out := out } := by
  have hpeek : (reader env D inp).keyKind st = .ok (kindOf D (frontHead x.bare)) st :=
    congrArg (EStateM.Result.ok · st) (hl.peek hreach)
  unfold readEntryKey
  cases key with
  | text b =>
    have hread := text_of_key hx
    obtain ⟨ref, t, htext, hsame, rfl⟩ := hl.readText_some hreach hread
    have hkind : entryKeyKind (reader env D inp) s { reader := st, out := out } =
      .ok .text { reader := st, out := out } := by
      unfold entryKeyKind
      split
      · rw [call_of_ok hpeek, kind_of_text hl.accepts.bare.2 hread]
      · rfl
    refine ⟨t, hsame, ?_⟩
    have hcall := call_of_ok (m := (reader env D inp).keyText) (b := { reader := st, out := out })
      htext
    rw [Run.bind_of_ok hkind, if_neg (by decide : ¬Kind.text = .uint),
      if_neg (by decide : ¬Kind.text = .sint),
      Run.bind_of_ok hcall]
    rfl
  | int k =>
    obtain ⟨hany, hlow⟩ := hint k rfl
    have hkeys : s.anyIntegerKey (reader env D inp) = true := by
      obtain ⟨e, es, hes⟩ := List.exists_cons_of_ne_nil hany
      obtain ⟨f, hf, hkey⟩ :=
        mem_intKeys.1 (hes ▸ List.mem_cons_self : (e.1, e.2) ∈ s.intKeys traits)
      refine List.any_eq_true.2 ⟨f, List.mem_of_getElem? hf, ?_⟩
      show (traits.integerKey s f).isSome = true
      rw [hkey]
      rfl
    have hkind : entryKeyKind (reader env D inp) s { reader := st, out := out } =
        .ok (kindOf D (frontHead x.bare)) { reader := st, out := out } := by
      unfold entryKeyKind
      rw [if_pos hkeys, call_of_ok hpeek]
    rw [Run.bind_of_ok hkind]
    obtain ⟨h, ⟨hbare, rfl⟩ | ⟨hbare, rfl⟩⟩ := int_of_key hx
    · obtain ⟨w, heq, hw⟩ : ∃ w, expectUint D inp st = expectUint D inp w ∧ Lies D inp x.bare w u :=
        hl.reach_bind hreach _ _
      rw [hbare] at hw ⊢
      obtain ⟨t, hread, hsame⟩ := hw.expectUint
      refine ⟨t, hsame, ?_⟩
      have hcall := call_of_ok (m := (reader env D inp).keyUint) (b := { reader := st, out := out })
        (heq.trans hread)
      rw [if_pos (show kindOf D (frontHead (.leaf .uint h)) = .uint from rfl), Run.bind_of_ok hcall,
        readAs]
      simp only [Nat.cast_lt, Int.toNat_natCast]
      split <;> rfl
    · obtain ⟨w, heq, hw⟩ : ∃ w, expectSint D inp st = expectSint D inp w ∧ Lies D inp x.bare w u :=
        hl.reach_bind hreach _ _
      rw [hbare] at hw ⊢
      have hle : h.value ≤ int64Max := by
        rw [int64Max]
        omega
      obtain ⟨t, hread, hsame⟩ := hw.expectSint_nint hle
      refine ⟨t, hsame, ?_⟩
      have hcall := call_of_ok (m := (reader env D inp).keySint) (b := { reader := st, out := out })
        (heq.trans hread)
      have hsint : kindOf D (frontHead (.leaf .nint h)) = .sint := rfl
      rw [hsint, if_neg (by decide : ¬Kind.sint = .uint), if_pos rfl, Run.bind_of_ok hcall, readAs,
        if_neg (by rw [int64Max]; omega)]
      rfl

/-! ### The entry of a key -/

/-- The keys that the search takes: a text, or an integer where a member has one, not below every
`std::int64_t` and not too far above the smallest. -/
def InReach (s : StructDef) : EntryKey → Prop
  | .text _ => True
  | .int k =>
    s.intKeys traits ≠ [] ∧ -2 ^ 63 ≤ k ∧
      (k ≤ int64Max → ∀ e ∈ s.intKeys traits, k - e.1 ≤ int64Max)

/-- The value of an unknown key is passed over, or refused. -/
def unknownKey (r : Reader State SeqCursor MapCursor) (s : StructDef) (ignoreKey : Bytes)
    (off : Nat) (key : EntryKey) :
    VCodec.D State Unit :=
  match readAs key with
  | .error u => bigKeyEntry r s off u
  | .ok key => unknownEntry r s ignoreKey off key

/-- `decode_struct` behind the key of an entry: the value is member `o`'s, or the one of an unknown
key. -/
def entryOf (r : Reader State SeqCursor MapCursor) (dec : FieldMeta → Ty → VCodec.D State Unit)
    (s : StructDef) (ignoreKey : Bytes) (off : Nat) (seen : List Nat) (key : EntryKey) :
      Option Nat → VCodec.D State (List Nat)
  | none => do
    unknownKey r s ignoreKey off key
    return seen
  | some i =>
    match s.fields[i]? with
    | none => throw .rejected
    | some f => do
      memberEntry r dec i f off key seen
      return if f.skipDeserializing then seen else i :: seen

/-- Wherever the key stands, the entry is the one of member `o`. -/
def Leads (r : Bytes → Reader State SeqCursor MapCursor) (D : Options) (s : StructDef)
    (key : EntryKey) (o : Option Nat) : Prop :=
  ∀ inp x st u out, Lies D inp x st u → (D.ignoreUnknownTags = true ∨ x.bare = x) →
    x.key = some key →
    ∃ t, Same t u ∧ ∀ dec ignoreKey off seen,
      (do structEntry (r inp) dec s ignoreKey off seen (← readEntryKey (r inp) s) : VCodec.D State (List Nat)) { reader := st, out := out } =
        entryOf (r inp) dec s ignoreKey off seen key o { reader := t, out := out }

theorem structEntry_eq {r : Reader State SeqCursor MapCursor} (h : s.Told r.traits) {key : EntryKey}
    {o : Option Nat} (ho : s.resolve r key = o) (dec : FieldMeta → Ty → VCodec.D State Unit)
    (ignoreKey : Bytes) (off : Nat) (seen : List Nat) :
    structEntry r dec s ignoreKey off seen (readAs key) =
      entryOf r dec s ignoreKey off seen key o := by
  have hplain (hread : readAs key = .ok key) :
      structEntry r dec s ignoreKey off seen (readAs key) =
        entryOf r dec s ignoreKey off seen key o := by
    rw [hread]
    unfold structEntry entryOf unknownKey
    simp only [ho, hread]
    all_goals cases o <;> rfl
  cases key with
  | text b => exact hplain rfl
  | int k =>
    by_cases hbig : int64Max < k
    · have hread : readAs (.int k) = .error k.toNat := if_pos hbig
      have hnone : o = none := by
        rw [← ho]
        by_contra hsome
        obtain ⟨i, hi⟩ := Option.ne_none_iff_exists'.1 hsome
        obtain ⟨f, hf, hk⟩ := (resolve_eq_some h).1 hi
        have hle := h.int64 _ (mem_intKeys.2 ⟨f, hf, hk⟩)
        exact absurd hle (not_le.2 hbig)
      rw [hnone, hread]
      unfold structEntry entryOf unknownKey
      rw [hread]
    · exact hplain (if_neg hbig)

theorem resolveKey_iff {s : StructDef} (h : s.Told traits) {key : EntryKey} (hkey : InReach s key) :
    ∃ o, s.resolveKey traits key = .ofIndex o ∧ (∀ env D, Leads (reader env D) D s key o) ∧
      ∀ i, o = some i ↔ ∃ f, s.fields[i]? = some f ∧ s.Takes traits f key := by
  have hfound : ∃ o, s.resolveKey traits key = .ofIndex o ∧
      ∀ i, o = some i ↔ ∃ f, s.fields[i]? = some f ∧ s.Takes traits f key := by
    cases key with
    | text k => exact resolveKey_text h.names k
    | int k => exact resolveKey_int h.keys h.int64 hkey.1 hkey.2.2
  obtain ⟨o, hresolve, ho⟩ := hfound
  refine ⟨o, hresolve, fun env D inp x st u out hl hreach hx => ?_, ho⟩
  have hdecoder : s.resolve (reader env D inp) key = o := Option.ext fun i => by
    rw [ho]
    exact resolve_eq_some (r := reader env D inp) h
  have hint : ∀ k, key = .int k → s.intKeys traits ≠ [] ∧ -2 ^ 63 ≤ k := by
    rintro k rfl
    exact ⟨hkey.1, hkey.2.1⟩
  obtain ⟨t, hsame, hread⟩ : ∃ t, Same t u ∧
      readEntryKey (reader env D inp) s { reader := st, out := out } =
        .ok (readAs key) { reader := t, out := out } :=
    readEntryKey_at hl hreach hx hint
  refine ⟨t, hsame, fun dec ignoreKey off seen => ?_⟩
  rw [Run.bind_of_ok hread, structEntry_eq h hdecoder]

/-- A member with an integer key and an alias. -/
def aliased : StructDef where
  name := str "Aliased"
  fields := [{
    info := { isMember := true, identifier := str "a", qualified := str "Aliased::a", key := some 1 }
    ty := .int ⟨true, .w32⟩
    wireName := str "a"
    aliases := [str "legacy"]
    required := false
    initial := .int 0 }]

theorem told_aliased : aliased.Told traits where
  names := by decide
  keys := by decide
  int64 := by decide

theorem resolveKey_iff_aliased :
    ∃ o, aliased.resolveKey traits (.text (str "legacy")) = .ofIndex o ∧
    (∀ env D, Leads (reader env D) D aliased (.text (str "legacy")) o) ∧
    ∀ i, o = some i ↔ ∃ f, aliased.fields[i]? = some f ∧
      aliased.Takes traits f (.text (str "legacy")) :=
  resolveKey_iff told_aliased trivial

/-- An alias leads to a member whose name an integer stands for. -/
theorem resolveKey_alias :
    ¬ ∀ s : StructDef, s.Told traits → ∀ k i, s.resolveKey traits (.text k) = .member i →
      ∃ f, s.fields[i]? = some f ∧ k ∈ f.names ∧
        (traits.integerKey s f = none ∨ traits.acceptsTextKey f.info = true) := by
  intro h
  obtain ⟨f, hf, -, hkey⟩ := h aliased told_aliased (str "legacy") 0 (by decide)
  cases hf
  revert hkey
  decide

end VCodec.Cbor
