import VCodec.Cbor.Cursors

/-!
# Typed decoding against the validator

A value of any type that construction reads off the input is one item of the grammar, so a skip from
the same place lands behind it as well. Under the validation of deterministic encoding the two agree
only where the tags are in shortest form: `item_head` steps over the tags it ignores, and `raw_head`
and `start` read theirs, without the check that every other head gets.
-/

namespace VCodec.Cbor

variable {o : Options} {inp : Bytes} {env : Env} {fuel : Nat}

/-! ### Skipping what was decoded -/

/-- The entry points of construction at a type: a value, a member, a call. -/
def decoders (env : Env) (o : Options) (inp : Bytes) (fuel : Nat) (f : FieldMeta) (t : Ty) :
    List (D State Unit) :=
  let r := reader env o inp
  [decodeValue env r fuel f t, decodeFieldValue env r (decodeValue env r fuel f) f t,
    VCodec.decode env r fuel t]

theorem spans_of_decoders
    (ha : Addressable o inp) {f : FieldMeta} {t : Ty} {m : D State Unit} {b b' : Build State}
    (hm : m ∈ decoders env o inp fuel f t) (h : m b = .ok () b') :
    Spans o inp b.reader b'.reader := by
  simp only [decoders, List.mem_cons, List.not_mem_nil, or_false] at hm
  rcases hm with rfl | rfl | rfl
  · exact (spanLaws env ha).passes_decodeValue fuel f t _ _ _ h
  · exact (spanLaws env ha).passes_decodeFieldValue
      (fun t => (spanLaws env ha).passes_decodeValue fuel f t) f t _ _ _ h
  · exact (spanLaws env ha).passes_decode fuel t _ _ _ h

/-- A run of the validator ends where `t` stands. -/
def SkipsTo (o : Options) (inp : Bytes) (s t : State) : Prop :=
  ∃ s', skipValue o inp s = .ok () s' ∧ s'.pos = t.pos ∧ s'.depth = t.depth

/-- Whatever construction decodes, a skip from the same place passes over, and so does one from that
place found again by its saved word. -/
theorem skipValue_of_decode
    (ha : Addressable o inp) (hdet : o.requireDeterministic = false) {f : FieldMeta} {t : Ty}
    {m : D State Unit} (hm : m ∈ decoders env o inp fuel f t) {b b' : Build State}
    (h : m b = .ok () b') :
    b'.reader.depth = b.reader.depth ∧ SkipsTo o inp b.reader b'.reader ∧
      (b.reader.depth ≤ o.maxDepth → ∀ s : State,
        SkipsTo o inp (s.restore b.reader.save) b'.reader) := by
  have hspan := spans_of_decoders ha hm h
  have skips : ∀ s, Same b.reader s → SkipsTo o inp s b'.reader := by
    intro s hsame
    obtain ⟨s', hrun, hpos, hdepth⟩ :=
      Spans.skipValue (Same.spans ⟨hsame.1.symm, hsame.2.symm⟩ hspan) hdet
    exact ⟨s', hrun, hpos, hdepth⟩
  obtain ⟨x, r, -, hin, -, hdepth⟩ := hspan
  refine ⟨hdepth, skips _ ⟨rfl, rfl⟩, fun hle s => skips _ ?_⟩
  have hlen := congrArg List.length hin
  have hx := x.bytes_pos
  have hroom := ha.depth
  have hsize := ha.length
  rw [List.length_drop, List.length_append] at hlen
  rw [restore_save (by omega) (by omega)]
  exact ⟨rfl, rfl⟩

/-- An array of one optional, cut out of a longer input. -/
theorem skipValue_of_decode_witness :
    SkipsTo {} [0x00, 0x81, 0xF6, 0xFF] { pos := 1 } { pos := 3, start := 2 } := by
  have hrun : decodeValue default (reader default {} [0x00, 0x81, 0xF6, 0xFF]) 3 noField
      (.seq .vector (.optional .bool)) { reader := { pos := 1 }, out := .null } =
      .ok () { reader := { pos := 3, start := 2 }, out := .seq [.null] } := by rfl
  exact (skipValue_of_decode ⟨by decide, by decide⟩ rfl (f := noField) List.mem_cons_self hrun).2.1

/-! ### Deterministic input -/

/-- The whole input is one item that satisfies the rules of deterministic encoding. -/
def CanonicalInput (o : Options) (inp : Bytes) : Prop :=
  ∃ x, inp = x.bytes ∧ Lenient o 0 x ∧ Sat CanonicalNode o.maxDepth 0 x

/-- The validator accepts the whole input. -/
def SkipsWhole (o : Options) (inp : Bytes) : Prop :=
  ∃ s, skipValue o inp {} = .ok () s ∧ s.pos = inp.length

/-- Every tag of the input has a head in shortest form. -/
def ShortTags (o : Options) (inp : Bytes) : Prop :=
  ∀ x, inp = x.bytes → Lenient o 0 x → Sat ShortTag o.maxDepth 0 x

theorem start_tagged (s : State) : Tagged inp s (start inp s) := by
  have hview := parseHead_view inp s.pos
  generalize hd : inp.drop s.pos = bs at hview
  unfold start
  generalize parseHead inp s.pos = g at hview
  cases hview with
  | head m h r =>
    simp only
    split
    · rename_i htag
      obtain rfl : m = .tag := htag.2.1
      refine .tag (t := s.advance (h.bytes .tag).length) hd ⟨rfl, rfl⟩ (.same ⟨?_, rfl⟩)
      rw [State.advance_pos, State.advance_pos, h.bytes_length]
      rfl
    · exact .same ⟨rfl, rfl⟩
  | _ =>
    simp only
    split
    · rename_i htag
      simp_all [selfDescribeTag]
    · exact .same ⟨rfl, rfl⟩

theorem conclude_ok {b : Build State} {v : Val} (h : conclude o inp b = .ok v) :
    inp.length ≤ b.reader.pos := by
  unfold conclude at h
  split at h
  · cases h
  split at h
  · rename_i hfinish
    unfold finish at hfinish
    split at hfinish
    · cases hfinish
    · exact not_lt.1 ‹_›
  · cases h

/-- What a successful call of the typed decoder under the validation of deterministic encoding says
of its input. -/
theorem parsed_of_decode (ha : Addressable o inp) (hdet : o.requireDeterministic = true) {t : Ty}
    {v : Val} (h : Cbor.decode env o fuel t inp = .ok v) : ∃ x, inp = x.bytes ∧ Parsed o 0 x := by
  have hstrict : withTypeDeterminism o (isDeterministicType env t) = o := by
    unfold withTypeDeterminism Options.strict
    split
    · rw [← hdet]
    · rfl
  simp only [Cbor.decode, hstrict] at h
  split at h
  · rename_i b hrun
    have hspan := (start_tagged {}).spans ((spanLaws env ha).passes_decode fuel t _ _ _ hrun)
    obtain ⟨x, r, hx, hin, hpos, -⟩ := hspan
    have hend := conclude_ok h
    have hlen := congrArg List.length hin
    rw [List.length_drop, List.length_append] at hlen
    obtain rfl : r = [] := List.length_eq_zero_iff.1 (by simp at hpos hlen; omega)
    refine ⟨x, ?_, hx⟩
    rw [List.append_nil] at hin
    exact hin
  · cases h
  · cases h

/-- The typed decoder checks every head but those of the tags. -/
theorem decode_strict_canonical_iff
    (ha : Addressable o inp) (hdet : o.requireDeterministic = true) {t : Ty} {v : Val}
    (h : Cbor.decode env o fuel t inp = .ok v) :
    (CanonicalInput o inp ↔ ShortTags o inp) ∧ (SkipsWhole o inp ↔ ShortTags o inp) := by
  obtain ⟨x, hbytes, hx⟩ := parsed_of_decode ha hdet h
  have unique : ∀ y, inp = y.bytes → Lenient o 0 y → y = x := by
    intro y hy hlenient
    have hlax : Sat LaxNode o.maxDepth 0 y := hlenient.imp fun _ h => h.1
    exact (hlax.unambiguous x _ _ [] [] (hx.lenient.imp fun _ h => h.1) (by rw [← hy, ← hbytes])).1
  have hshort : ShortTags o inp ↔ Sat ShortTag o.maxDepth 0 x := by
    constructor
    · exact fun h => h x hbytes hx.lenient
    · intro h y hy hlenient
      rwa [unique y hy hlenient]
  have hskip : SkipsWhole o inp ↔ CanonicalInput o inp := by
    constructor
    · rintro ⟨s, hrun, hend⟩
      obtain ⟨y, r, hy, hin, rfl⟩ := skipValue_ok_iff.1 hrun
      obtain rfl : r = [] := by
        have hlen := congrArg List.length hin
        rw [List.length_drop, List.length_append] at hlen
        simp only [State.advance_pos] at hend
        exact List.length_eq_zero_iff.1 (by omega)
      refine ⟨y, by simpa using hin, hy.imp fun _ h => ⟨h.1, h.2.1⟩, hy.imp fun _ h => h.2.2 hdet⟩
    · rintro ⟨y, hy, hlenient, hcanon⟩
      have hacc : Accepts o 0 y := (hlenient.and hcanon).imp fun _ h => ⟨h.1.1, h.1.2, fun _ => h.2⟩
      refine ⟨_, skipValue_ok_iff.2 ⟨y, [], hacc, by simpa using hy, rfl⟩, ?_⟩
      rw [State.advance_pos, Nat.zero_add, ← hy]
  have hcanonical : CanonicalInput o inp ↔ ShortTags o inp := by
    rw [hshort]
    constructor
    · rintro ⟨y, hy, hlenient, hcanon⟩
      obtain rfl := unique y hy hlenient
      refine hcanon.imp fun z hz => ?_
      cases z with
      | tag h z => exact hz
      | _ => trivial
    · exact fun h => ⟨x, hbytes, hx.lenient, hx.canonical hdet h⟩
  exact ⟨hcanonical, hskip.trans hcanonical⟩

/-- A tagged integer whose tag has a head of one byte. -/
theorem decode_strict_canonical_iff_witness :
    SkipsWhole { requireDeterministic := true } [0xC1, 0x05] ↔
      ShortTags { requireDeterministic := true } [0xC1, 0x05] :=
  have hrun : Cbor.decode default { requireDeterministic := true } 1 (.int uint8) [0xC1, 0x05] =
    .ok (.int 5) := by rfl
  (decode_strict_canonical_iff ⟨by decide, by decide⟩ rfl hrun).2

/-- The ignored tag 1 in two bytes passes the typed decoder and not the validator. -/
theorem decode_strict_wide_tag :
    Cbor.decode default { requireDeterministic := true } 1 (.int uint8) [0xD8, 0x01, 0x05] =
      .ok (.int 5) ∧
      ¬ SkipsWhole { requireDeterministic := true } [0xD8, 0x01, 0x05] := by
  refine ⟨by rfl, ?_⟩
  rintro ⟨s, hrun, -⟩
  have herror : ∃ e s', skipValue { requireDeterministic := true } [0xD8, 0x01, 0x05] {} =
    .error e s' := ⟨_, _, rfl⟩
  obtain ⟨e, s', herror⟩ := herror
  rw [herror] at hrun
  cases hrun

end VCodec.Cbor
