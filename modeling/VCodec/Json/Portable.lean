import VCodec.Cbor.Portable
import VCodec.Json.RoundTrip

/-!
# Round trips in JSON

What a call writes is read back as the value, whatever the options of the two sides, if no part of
the value is lost, and a text of the same document with other blanks is read alike. A value of a
type that owns what it holds loses only what is put in the place of members that are left out.
-/

namespace VCodec.Json

/-! ### A program for both formats -/

/-- The schemas that suit CBOR suit JSON. -/
theorem Program.ofCbor {env : Env} (hp : Cbor.Program env) : Program env where
  regular := hp.regular
  vetted := {
    names := hp.vetted.names
    keys := fun id => by
      have hnone : (env.structs id).fields.filterMap
        (format.traits.integerKey (env.structs id)) = [] :=
        List.filterMap_eq_nil_iff.2 fun _ _ => rfl
      rw [hnone]
      exact List.nodup_nil
    integers := fun _ _ _ _ hk => by cases hk
    transparent := hp.vetted.transparent }

/-- `struct reading { std::string name; std::vector<std::int32_t> counts; [[=skip_if_null]] std::optional<bool> seen; };` -/
def reading : StructDef where
  name := str "reading"
  fields := [
    { info := { isMember := true, identifier := str "name" }, ty := .string false,
      wireName := str "name", required := true
      initial := .text [] },
    { info := { isMember := true, identifier := str "counts" },
      ty := .seq .vector (.int ⟨true, .w32⟩), wireName := str "counts"
      required := true, initial := .seq [] },
    { info := { isMember := true, identifier := str "seen" }, ty := .optional .bool,
      wireName := str "seen", skipIfNull := true
      required := false, initial := .null }]

theorem reading_cbor : Cbor.Program (Cbor.soleEnv reading) := by
  refine Cbor.program_of (fun _ f hf => ?_) fun _ =>
    ⟨by decide, by decide, by decide, fun h => Bool.noConfusion h, by decide, by decide⟩
  obtain rfl | rfl | rfl : f = _ ∨ f = _ ∨ f = _ := by
    simpa [Cbor.soleEnv, Cbor.schemaEnv, reading] using hf
  all_goals exact ⟨.whole rfl, fun _ h => by cases h⟩

theorem reading_json : Program (Cbor.soleEnv reading) := .ofCbor reading_cbor

theorem reading_names : NamesValid (Cbor.soleEnv reading) :=
  fun _ => (by decide : ∀ f ∈ reading.fields, Utf8.Valid f.wireName)

theorem reading_unmixed : UnmixedStructs (Cbor.soleEnv reading) := by
  intro _ f hf
  obtain rfl | rfl | rfl : f = _ ∨ f = _ ∨ f = _ := by
    simpa [Cbor.soleEnv, Cbor.schemaEnv, reading] using hf
  · exact trivial
  · exact ⟨nofun, trivial⟩
  · exact trivial

theorem unitConv_numbers : Numbers unitConv := ⟨exactConv_correct, unitConv_prints⟩

section

variable {env : Env} {o D : Options} {cc : Charconv} {t : Ty} {v old : Val} {d : Doc} {bs : Bytes}

/-! ### Any text of a document -/

/-- Whatever blanks stand in a text of the document of a value, and whatever the object held before,
`decode_into` leaves the value exactly if every part of it comes back. -/
theorem decodeInto_rendered_iff
    (hp : Program env) (hcc : Numbers cc) (ha : Addressable D bs) (herrors : D.errors = .failFast)
    (hd : lowerTop env traits declared t v = some d) (hbs : Rendered D cc d bs)
    (hv : Proper env noField t v) (hclear : Clear env format noField t v)
    (hold : Shaped env t old) :
    RecoversInto env D cc t bs old v ↔ KeptMember env format everything noField t old v := by
  rw [recoversInto_iff herrors]
  exact constructs_iff hp hcc ha herrors hd hbs hv hclear hold

/-- `" [ 1 ,\t2 ]\n"`, into a vector that holds another number. -/
theorem decodeInto_rendered_blanks :
    RecoversInto (Cbor.soleEnv reading) {} unitConv (.seq .vector (.int ⟨true, .w32⟩))
      (str " [ 1 ,\t2 ]\n") (.seq [.int 9])
      (.seq [.int 1, .int 2]) := by
  have hblank : ∀ {c : UInt8}, isWs c = true → Blank [c] :=
    fun h c hc => List.mem_singleton.1 hc ▸ h
  have hone : Layout {} unitConv 1 (.sint noField 1) [0x31] :=
    .scalar rfl (by decide : (-2 ^ 63 : Int) ≤ 1 ∧ (1 : Int) < 2 ^ 63)
  have htwo : Layout {} unitConv 1 (.sint noField 2) [0x32] :=
    .scalar rfl (by decide : (-2 ^ 63 : Int) ≤ 2 ∧ (2 : Int) < 2 ^ 63)
  have hrest := Lays.comma (b := false) (hblank (c := 0x20) rfl)
    (.element (hblank (c := 0x09) rfl) htwo) (.close (hblank (c := 0x20) rfl))
  have harray : Layout {} unitConv 0 (.array noField (some 2) [.sint noField 1, .sint noField 2])
    _ :=
    .container rfl (by decide) (.first (.element (hblank (c := 0x20) rfl) hone) hrest)
  have hproper : Proper (Cbor.soleEnv reading) noField (.seq .vector (.int ⟨true, .w32⟩))
    (.seq [.int 1, .int 2]) :=
    ⟨⟨(by decide : IntTy.Holds ⟨true, .w32⟩ 1), (by decide : IntTy.Holds ⟨true, .w32⟩ 2), trivial⟩,
      fun h => by cases h⟩
  exact (decodeInto_rendered_iff reading_json unitConv_numbers ⟨by decide, by decide⟩ rfl rfl
    ⟨_, _, _, hblank (c := 0x20) rfl, harray, hblank (c := 0x0A) rfl, rfl⟩ hproper
    (Unmixed.clear (t := .seq .vector (.int ⟨true, .w32⟩)) reading_unmixed ⟨nofun, trivial⟩ _)
      (.whole rfl)).2 (.inr (.inr ⟨trivial, trivial, trivial⟩))

/-! ### Encoded values -/

/-- What any options write is read back with any options that allow as much, exactly if every part
of the value comes back. -/
theorem decode_encode_iff (hp : Program env) (hnames : NamesValid env) (hcc : Numbers cc)
    (hs : Suits o D) (ha : Addressable D bs) (herrors : D.errors = .failFast)
    (hv : Proper env noField t v) (hclear : Clear env format noField t v) (hfinite : FiniteFloats v)
    (henc : encode env o cc t v = .ok bs) :
    Recovers env D cc t bs v ↔ KeptMember env format everything noField t (t.zero env) v := by
  obtain ⟨d, hd, hsound, rfl⟩ := encode_ok_iff.1 henc
  have hlegible : Legible D 0 d :=
    legible_of_sound hs hsound (lowerTop_shown hnames hv.inhabits hfinite hd)
  rw [recovers_iff, recoversInto_iff herrors]
  exact constructs_iff hp hcc ha herrors hd (rendered_print D o cc hlegible) hv hclear
    (shaped_zero hp.regular t)

/-- A member that is not set is left out. -/
def readings : Val := .seq [.text (str "ok"), .seq [.int 1, .int (-2)], .null]

theorem decode_encode_pretty :
    encode (Cbor.soleEnv reading) { pretty := true } unitConv (.struct 0) readings =
        .ok (str "\x7b\n  \"name\": \"ok\",\n  \"counts\": [\n    1,\n    -2\n  ]\n\x7d") ∧
      Recovers (Cbor.soleEnv reading) {} unitConv (.struct 0)
        (str "\x7b\n  \"name\": \"ok\",\n  \"counts\": [\n    1,\n    -2\n  ]\n\x7d") readings := by
  have henc : encode (Cbor.soleEnv reading) { pretty := true } unitConv (.struct 0) readings =
      .ok (str "\x7b\n  \"name\": \"ok\",\n  \"counts\": [\n    1,\n    -2\n  ]\n\x7d") := by
        decide +kernel
  have hcounts : ProperEach (Cbor.soleEnv reading) noField
    (List.replicate 2 (.int ⟨true, .w32⟩)) [.int 1, .int (-2)] :=
    ⟨(by decide : IntTy.Holds ⟨true, .w32⟩ 1), (by decide : IntTy.Holds ⟨true, .w32⟩ (-2)), trivial⟩
  have hproper : Proper (Cbor.soleEnv reading) noField (.struct 0) readings :=
    ⟨trivial, ⟨hcounts, fun h => by cases h⟩, trivial, trivial⟩
  have hfinite : FiniteFloats readings := ⟨trivial, ⟨trivial, trivial, trivial⟩, trivial, trivial⟩
  refine ⟨henc,
    (decode_encode_iff (o := { pretty := true }) (D := {}) reading_json reading_names
    unitConv_numbers ⟨by decide, id⟩
    ⟨by decide, by decide⟩ rfl hproper (Unmixed.clear (t := .struct 0) reading_unmixed trivial _)
      hfinite henc).2 (.inr ?_)⟩
  exact ⟨.inr fun _ h => Bool.noConfusion h, .inr (.inr ⟨trivial, trivial, trivial⟩),
    fun _ => ⟨.inr rfl, rfl⟩, trivial⟩

end

end VCodec.Json
