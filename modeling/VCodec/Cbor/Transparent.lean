import VCodec.Cbor.Portable

/-!
# Transparent structs

A transparent struct is written as its member, and without the tags of that; construction expects
them. Of a value that is otherwise intact these tags are all that stands in the way of a round trip.
-/

namespace VCodec.Cbor

section

variable {env : Env} {o : Options} {t : Ty} {v : Val} {d : Doc} {bs : Bytes}

/-- The document of the value is one that the reader takes, and every part of the value comes back
from it that does not hang on the given aspect. -/
def Intact (env : Env) (o : Options) (a : Aspect) (t : Ty) (v : Val) : Prop :=
  ∃ d, lowerTop env traits memberOrder t v = some d ∧
    Legible (effective env o t) (readWith env {} t).requireDeterministic d ∧
      ¬ Swallowed env (effective env o t) t d ∧
    KeptMember env (format (effective env o t)) (· ≠ a) noField t (t.zero env) v

theorem keptMember_split (a : Aspect) {F : Format} {f : FieldMeta} {old : Val} :
    KeptMember env F everything f t old v ↔
      KeptMember env F (· ≠ a) f t old v ∧ KeptMember env F (· = a) f t old v := by
  have hsplit : everything = fun b => b ≠ a ∨ b = a := by
    funext b
    exact propext (iff_of_true trivial (ne_or_eq b a))
  unfold KeptMember
  rw [hsplit, kept_or, or_and_left]

theorem decodes_intact (hp : Program env) (a : Aspect) (hdepth : o.maxDepth ≤ 256)
    (hutf : o.validateUtf8 = true) (hv : Proper env noField t v)
    (hclear : Clear env (format (effective env o t)) noField t v)
    (henc : encode env o t v = .ok bs) (hlen : bs.length < 2 ^ 48) :
    Decodes env {} t bs v ↔
      Intact env o a t v ∧ KeptMember env (format (effective env o t)) (· = a) noField t
        (t.zero env) v := by
  obtain ⟨d, hd, hsound, hdistinct, hbytes⟩ := encode_ok_iff.1 henc
  have hintact : Intact env o a t v ↔
    Legible (effective env o t) (readWith env {} t).requireDeterministic d ∧
      ¬ Swallowed env (effective env o t) t d ∧
      KeptMember env (format (effective env o t)) (· ≠ a) noField t (t.zero env) v := by
    unfold Intact
    rw [hd]
    exact ⟨fun ⟨_, hd', h⟩ => Option.some.inj hd' ▸ h, fun h => ⟨d, rfl, h⟩⟩
  rw [decodes_iff, decodesInto_iff rfl,
    constructs_iff hp (suits_default env t hdepth hutf) (takes_default env t)
    (addressable_default env t hlen) ⟨hd, hsound, hdistinct, hbytes⟩ hv hclear
      (shaped_zero hp.regular t), hintact,
    keptMember_split a, and_assoc, and_assoc]

/-- A value that holds transparent structs comes back if it is intact apart from their tags, and
none are expected before their members; and only then, if none of it is taken for something else. -/
theorem decodes_transparent_iff
    (hp : Program env) (hdepth : o.maxDepth ≤ 256) (hutf : o.validateUtf8 = true)
    (hv : Proper env noField t v) (henc : encode env o t v = .ok bs) (hlen : bs.length < 2 ^ 48) :
    (Clear env (format (effective env o t)) noField t v ∧ Intact env o .tags t v ∧
        KeptMember env (format (effective env o t)) (· = .tags) noField t (t.zero env) v →
          Decodes env {} t bs v) ∧
      (Decodes env {} t bs v → Clear env (format (effective env o t)) noField t v →
        Intact env o .tags t v ∧ KeptMember env (format (effective env o t)) (· = .tags) noField t
          (t.zero env) v) :=
  have hdecodes := fun hclear => decodes_intact hp .tags hdepth hutf hv hclear henc hlen
  ⟨fun h => (hdecodes h.1).2 h.2, fun h hclear => (hdecodes hclear).1 h⟩

end

/-- `struct [[=transparent]] stamp { std::int64_t at; };`, the member with these tags. -/
def stamp (tags : List Nat) : StructDef where
  name := str "stamp"
  transparent := true
  fields := [{
    info := { isMember := true, identifier := str "at", tags := tags }
    ty := .int ⟨true, .w64⟩
    wireName := str "at"
    required := true
    initial := .int 0 }]

section

variable {tags : List Nat}

theorem stamp_program (h : ∀ n ∈ tags, n < 2 ^ 64) : Program (soleEnv (stamp tags)) := by
  refine program_of (fun _ f hf => ?_) fun _ =>
    ⟨List.nodup_singleton _, List.nodup_nil, fun f hf k hk => ?_, fun _ => rfl,
    fun f hf n hn => ?_, List.forall_mem_nil _⟩
  all_goals obtain rfl := List.mem_singleton.1 hf
  · exact ⟨.whole rfl, fun _ h => by cases h⟩
  · cases hk
  · exact h n hn

theorem stamp_proper : Proper (soleEnv (stamp tags)) noField (.struct 0) (.seq [.int 0]) :=
  ⟨(by decide : IntTy.Holds ⟨true, .w64⟩ 0), trivial⟩

theorem stamp_clear {F : Format} :
    Clear (soleEnv (stamp tags)) F noField (.struct 0) (.seq [.int 0]) := by
  refine Unmixed.clear (t := .struct 0) (fun _ f hf => ?_) trivial _
  obtain rfl := List.mem_singleton.1 hf
  exact trivial

end

/-- Without a tag the member comes back. -/
theorem decodes_transparent_iff_witness :
    Decodes (soleEnv (stamp [])) {} (.struct 0) [0x00] (.seq [.int 0]) := by
  refine (decodes_transparent_iff (o := {}) (stamp_program (List.forall_mem_nil _))
    (by decide) rfl stamp_proper rfl (by decide)).1
    ⟨stamp_clear, ⟨_, rfl, trivial, fun h => h.2, .inr ⟨fun h => absurd rfl h, trivial⟩⟩,
      .inr ⟨fun _ => rfl, trivial⟩⟩

/-- The tag of the member is not written, and it is expected. -/
theorem decodes_transparent_not_stamp :
    encode (soleEnv (stamp [1])) {} (.struct 0) (.seq [.int 0]) = .ok [0x00] ∧
      ¬ Decodes (soleEnv (stamp [1])) {} (.struct 0) [0x00] (.seq [.int 0]) := by
  have henc : encode (soleEnv (stamp [1])) {} (.struct 0) (.seq [.int 0]) = .ok [0x00] := rfl
  have hprogram : Program (soleEnv (stamp [1])) := stamp_program (by decide)
  refine ⟨henc, fun h => ?_⟩
  rcases ((decodes_intact hprogram .tags (by decide) rfl stamp_proper stamp_clear henc
    (by decide)).1 h).2 with hbulk | hkept
  · cases hbulk
  · have huntagged : ([1] : List Nat) = [] := hkept.1 rfl
    cases huntagged

end VCodec.Cbor
