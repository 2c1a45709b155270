import VCodec.Json.Portable
import VCodec.Cbor.Portable

/-!
# What survives in both formats

What is put in the place of members that are left out does not depend on the format, so a value of a
portable type that comes back from its CBOR encoding comes back from its JSON encoding.
-/

namespace VCodec

/-! ### Omissions -/

section

variable {env : Env} {F G : Format}

def Ty.Numeric : Ty → Prop
  | .int _ | .float | .double => True
  | _ => False

theorem kept_number {f : FieldMeta} {t : Ty} (ht : t.Numeric) (old v : Val) :
    Kept env F (· = .omission) f t old v := by
  cases t with
  | int k => cases v <;> exact trivial
  | float | double => cases v <;> first | exact trivial | exact fun ha => Aspect.noConfusion ha
  | _ => exact ht.elim

theorem keptEach_numbers {f : FieldMeta} {t : Ty} (ht : t.Numeric) (n : Nat) (olds vs : List Val) :
    KeptEach env F (· = .omission) f (List.replicate n t) olds vs := by
  induction n generalizing olds vs with
  | zero => cases vs <;> exact trivial
  | succ n ih =>
    cases olds with
    | nil => cases vs <;> exact trivial
    | cons old olds =>
      cases vs with
      | nil => exact trivial
      | cons v vs => exact ⟨kept_number ht old v, ih olds vs⟩

/-- What a format writes at once, as bytes or in bulk, is a range of numbers. -/
structure BulkNumbers (F : Format) : Prop where
  bytes : ∀ {f t}, F.traits.isBytes f t = true → (∃ r, t = .byteRange r) ∨
    contiguousOfUint8 t = true
  bulk : ∀ {f t}, F.traits.bulkRange f t = true → Cbor.typedArrayRange t = true

theorem numeric_of_element {t : Ty} (h : Cbor.typedArrayElement t = true) : t.Numeric := by
  cases t <;> first | exact trivial | cases h

theorem numeric_of_uint8 {T : Ty} (h : contiguousOfUint8 T = true) :
    (∃ n t, T = .array n t ∧ t.Numeric) ∨ ∃ kind t, T = .seq kind t ∧ t.Numeric := by
  unfold contiguousOfUint8 at h
  split at h
  · split at h
    · exact .inr ⟨_, _, rfl, trivial⟩
    · cases h
  · split at h
    · exact .inl ⟨_, _, rfl, trivial⟩
    · cases h
  · cases h

theorem kept_array_iff (hF : BulkNumbers F) {f : FieldMeta} {n : Nat} {t : Ty} {old : Val}
    {vs : List Val} :
    Kept env F (· = .omission) f (.array n t) old (.seq vs) ↔
      KeptEach env F (· = .omission) f (List.replicate vs.length t) old.items vs := by
  rw [Kept]
  refine or_iff_right_of_imp fun h => ?_
  rcases hF.bytes h with ⟨r, hr⟩ | h
  · cases hr
  · rcases numeric_of_uint8 h with ⟨_, _, heq, ht⟩ | ⟨_, _, heq, ht⟩
    · cases heq
      exact keptEach_numbers ht _ _ _
    · cases heq

theorem kept_seq_iff (hF : BulkNumbers F) {f : FieldMeta} {kind : SeqKind} {t : Ty} {old : Val}
    {vs : List Val} :
    Kept env F (· = .omission) f (.seq kind t) old (.seq vs) ↔
      KeptEach env F (· = .omission) f (List.replicate vs.length t)
      (List.replicate vs.length (t.zero env)) vs := by
  rw [Kept]
  refine or_iff_right_of_imp fun h => ?_
  rcases hF.bytes h with ⟨r, hr⟩ | h
  · cases hr
  · rcases numeric_of_uint8 h with ⟨_, _, heq, ht⟩ | ⟨_, _, heq, ht⟩
    · cases heq
    · cases heq
      exact keptEach_numbers ht _ _ _

/-- What is written in bulk comes back. -/
theorem kept_of_bulk (hF : BulkNumbers F) {f : FieldMeta} {t : Ty} {old v : Val}
    (h : Bulk F f t v) :
    Kept env F (· = .omission) f t old v := by
  fun_induction Bulk F f t v generalizing old with
  | case1 t v ih => exact ⟨fun ha => Aspect.noConfusion ha, ih h⟩
  | case2 => exact h.elim
  | case3 t v _ _ =>
    have hrange := hF.bulk h
    unfold Cbor.typedArrayRange at hrange
    split at hrange
    · have ht := numeric_of_element hrange
      cases v <;> first | exact trivial | exact (kept_seq_iff hF).2 (keptEach_numbers ht _ _ _)
    · have ht := numeric_of_element hrange
      cases v <;> first | exact trivial | exact (kept_array_iff hF).2 (keptEach_numbers ht _ _ _)
    · cases hrange

mutual

/-- What is put in the place of the members that are left out is the same in every format. -/
theorem kept_omission_iff (hF : BulkNumbers F) (hG : BulkNumbers G) (f : FieldMeta) (t : Ty)
    (old v : Val) :
    Kept env F (· = .omission) f t old v ↔ Kept env G (· = .omission) f t old v := by
  have hother : ∀ {a : Aspect} {p q : Prop}, a ≠ .omission →
    ((a = .omission → p) ↔ (a = .omission → q)) :=
    fun h => ⟨fun _ ha => absurd ha h, fun _ ha => absurd ha h⟩
  cases t with
  | float | double | enum e | string view | byteRange r =>
    cases v <;> first | exact Iff.rfl | exact hother (by decide)
  | time d => cases v <;> exact hother (by decide)
  | optional t =>
    cases v with
    | some v =>
      rw [Kept, Kept]
      exact and_congr (hother (by decide)) (kept_omission_iff hF hG f t _ v)
    | _ => exact Iff.rfl
  | variant alts =>
    cases v with
    | variant i v =>
      rw [Kept, Kept]
      cases alts[i]? with
      | none => exact Iff.rfl
      | some alt =>
        cases htag : internallyTagged env alt.2 with
        | none =>
          simp only [htag]
          exact kept_omission_iff hF hG noField alt.2 _ v
        | some d =>
          cases v with
          | seq vs =>
            simp only [htag]
            exact and_congr (hother (by decide))
              (and_congr (hother (by decide)) (kept_fields_omission hF hG _ _ vs))
          | _ =>
            simp only [htag]
            exact kept_omission_iff hF hG noField alt.2 _ _
    | _ => exact Iff.rfl
  | map kind kt t =>
    cases v with
    | map es =>
      rw [Kept, Kept]
      exact and_congr (hother (by decide))
        (and_congr (hother (by decide)) (kept_entries_omission hF hG f t es))
    | _ => exact Iff.rfl
  | tuple ts =>
    cases v with
    | seq vs => exact kept_each_omission hF hG f ts old.items vs
    | _ => exact Iff.rfl
  | array n t =>
    cases v with
    | seq vs =>
      rw [kept_array_iff hF, kept_array_iff hG]
      exact kept_each_omission hF hG f _ _ vs
    | _ => exact Iff.rfl
  | seq kind t =>
    cases v with
    | seq vs =>
      rw [kept_seq_iff hF, kept_seq_iff hG]
      exact kept_each_omission hF hG f _ _ vs
    | _ => exact Iff.rfl
  | struct st =>
    cases v with
    | seq vs =>
      rw [Kept, Kept]
      split
      · exact kept_inside_omission hF hG _ _ vs
      · exact kept_fields_omission hF hG _ _ vs
    | _ => exact Iff.rfl
  | _ => cases v <;> exact Iff.rfl
termination_by structural v

theorem kept_each_omission (hF : BulkNumbers F) (hG : BulkNumbers G) (f : FieldMeta) (ts : List Ty)
    (olds vs : List Val) :
    KeptEach env F (· = .omission) f ts olds vs ↔ KeptEach env G (· = .omission) f ts olds vs := by
  match ts, olds, vs with
  | t :: ts, old :: olds, v :: vs =>
    exact and_congr (kept_omission_iff hF hG f t old v) (kept_each_omission hF hG f ts olds vs)
  | [], _, [] | [], _, _ :: _ | _ :: _, [], [] | _ :: _, [], _ :: _ | _ :: _, _ :: _, [] =>
    exact Iff.rfl
termination_by structural vs

theorem kept_entries_omission
    (hF : BulkNumbers F) (hG : BulkNumbers G) (f : FieldMeta) (t : Ty) (es : List (Key × Val)) :
    KeptEntries env F (· = .omission) f t es ↔ KeptEntries env G (· = .omission) f t es := by
  match es with
  | [] => exact Iff.rfl
  | (k, v) :: es =>
    exact and_congr (kept_omission_iff hF hG f t _ v) (kept_entries_omission hF hG f t es)
termination_by structural es

theorem kept_inside_omission
    (hF : BulkNumbers F) (hG : BulkNumbers G) (fs : List Field) (olds vs : List Val) :
    KeptInside env F (· = .omission) fs olds vs ↔ KeptInside env G (· = .omission) fs olds vs := by
  match fs, olds, vs with
  | f :: _, old :: _, v :: _ =>
    exact and_congr ⟨fun _ ha => Aspect.noConfusion ha, fun _ ha => Aspect.noConfusion ha⟩
      (kept_omission_iff hF hG f.info f.ty old v)
  | [], _, [] | [], _, _ :: _ | _ :: _, [], [] | _ :: _, [], _ :: _ | _ :: _, _ :: _, [] =>
    exact Iff.rfl
termination_by structural vs

theorem kept_fields_omission
    (hF : BulkNumbers F) (hG : BulkNumbers G) (fs : List Field) (olds vs : List Val) :
    KeptFields env F (· = .omission) fs olds vs ↔ KeptFields env G (· = .omission) fs olds vs := by
  match fs, olds, vs with
  | f :: fs, old :: olds, v :: vs =>
    rw [KeptFields, KeptFields]
    refine and_congr ?_ (kept_fields_omission hF hG fs olds vs)
    split
    · rw [or_iff_right_of_imp (kept_of_bulk hF), or_iff_right_of_imp (kept_of_bulk hG)]
      exact kept_omission_iff hF hG f.info f.ty old v
    · exact Iff.rfl
  | [], _, [] | [], _, _ :: _ | _ :: _, [], [] | _ :: _, [], _ :: _ | _ :: _, _ :: _, [] =>
    exact Iff.rfl
termination_by structural vs

end

end

theorem cbor_bulkNumbers (o : Cbor.Options) : BulkNumbers (Cbor.format o) where
  bytes := Cbor.isBytes_types
  bulk h := (Bool.and_eq_true_iff.1 h).2

theorem json_bulkNumbers : BulkNumbers Json.format where
  bytes := Json.isBytes_types
  bulk h := Bool.noConfusion h

/-! ### Types that are portable in JSON -/

section

variable {env : Env} {tr : Traits}

mutual

theorem portable_json {t : Ty} (h : Portable env tr t) : Portable env Json.traits t := by
  cases t with
  | optional t => exact ⟨h.1, portable_json h.2⟩
  | variant alts => exact portableAlternatives_json h
  | map kind kt t => exact ⟨h.1, h.2.1, portable_json h.2.2⟩
  | tuple ts => exact portableAll_json h
  | array n t | seq kind t => exact portable_json (t := t) h
  | _ => exact h

theorem portableAll_json {ts : List Ty} (h : PortableAll env tr ts) :
    PortableAll env Json.traits ts := by
  match ts with
  | [] => exact trivial
  | t :: ts => exact ⟨portable_json h.1, portableAll_json h.2⟩

theorem portableAlternatives_json {alts : List (Bytes × Ty)}
    (h : PortableAlternatives env tr alts) :
    PortableAlternatives env Json.traits alts := by
  match alts with
  | [] => exact trivial
  | (_, t) :: alts =>
    exact ⟨⟨fun _ _ _ _ => rfl, portable_json h.1.2⟩, portableAlternatives_json h.2⟩

end

theorem portableStructs_json (h : PortableStructs env tr) : PortableStructs env Json.traits :=
  { h with types := fun id f hf => portable_json (h.types id f hf) }

end

/-! ### Finite floats -/

section

variable {p p' : Single → Prop} {q q' : Double → Prop}

mutual

theorem Val.Floats.imp (hp : ∀ x, p x → p' x) (hq : ∀ x, q x → q' x) {v : Val}
    (h : v.Floats p q) : v.Floats p' q' := by
  cases v with
  | single x => exact hp x h
  | real x => exact hq x h
  | some v | variant i v => exact Val.Floats.imp hp hq (v := v) h
  | seq vs => exact Val.FloatsAll.imp hp hq h
  | map es => exact Val.FloatsEntries.imp hp hq h
  | _ => exact trivial

theorem Val.FloatsAll.imp (hp : ∀ x, p x → p' x) (hq : ∀ x, q x → q' x) {vs : List Val}
    (h : Val.FloatsAll p q vs) : Val.FloatsAll p' q' vs := by
  match vs with
  | [] => exact trivial
  | v :: vs => exact ⟨h.1.imp hp hq, Val.FloatsAll.imp hp hq h.2⟩

theorem Val.FloatsEntries.imp (hp : ∀ x, p x → p' x) (hq : ∀ x, q x → q' x) {es : List (Key × Val)}
    (h : Val.FloatsEntries p q es) : Val.FloatsEntries p' q' es := by
  match es with
  | [] => exact trivial
  | (_, v) :: es => exact ⟨h.1.imp hp hq, Val.FloatsEntries.imp hp hq h.2⟩

end

end

namespace Json

theorem notNan_of_finite {x : Single} (hx : Finite (doubleOfSingle x)) : x.isNan = false := by
  by_contra h
  have hback : (doubleOfSingle x).isNan = true := by
    rw [doubleOfSingle, Ieee.Binary.convert, if_pos (Bool.eq_true_of_not_eq_false h)]
    exact Ieee.Binary.isNan_nan _ _
  rw [Ieee.Binary.isNan_of_lt hx] at hback
  cases hback

theorem keepsFloats {env : Env} {tr : Traits} (hs : PortableStructs env tr) :
    KeepsFloats env format (fun f => f.tagKey ≠ some []) (fun x => Finite (doubleOfSingle x))
      Finite where
  names _ := rfl
  none := by decide
  members := hs.tagged
  discriminator hf := hf
  single _ hx := ⟨_, if_pos hx, singleOfDouble_doubleOfSingle (notNan_of_finite hx)⟩
  double _ hx := if_pos hx

end Json

/-! ### Round trips -/

section

variable {env : Env} {o : Cbor.Options} {p D : Json.Options} {cc : Json.Charconv} {t : Ty} {v : Val}
    {cs bs : Bytes}

theorem noNan_of_finite {v : Val} (h : Json.FiniteFloats v) : Cbor.NoNan v :=
  h.imp (fun _ => Json.notNan_of_finite) fun _ => Ieee.Binary.isNan_of_lt

/-- A value of a portable type comes back from its CBOR encoding, and from its JSON encoding,
exactly if what is put in the place of the members that are left out is what they were. -/
theorem survives_iff (hp : Cbor.Program env) (hs : Cbor.PortableProgram env)
    (hnames : Json.NamesValid env) (hcc : Json.Numbers cc) (ht : Portable env Cbor.traits t)
    (hdepth : o.maxDepth ≤ 256) (hutf : o.validateUtf8 = true) (hfloats : o.floats = .preferred)
    (hsuits : Json.Suits p D) (herrors : D.errors = .failFast) (hlen : cs.length < 2 ^ 48)
    (ha : Json.Addressable D bs) (hv : Proper env noField t v)
    (hcbor : Clear env (Cbor.format (Cbor.effective env o t)) noField t v)
    (hjson : Clear env Json.format noField t v) (hfinite : Json.FiniteFloats v)
    (hcs : Cbor.encode env o t v = .ok cs) (hbs : Json.encode env p cc t v = .ok bs) :
    (Cbor.Decodes env {} t cs v ↔ Kept env Json.format (· = .omission) noField t (t.zero env) v) ∧
      (Json.Recovers env D cc t bs v ↔
        Kept env Json.format (· = .omission) noField t (t.zero env) v) := by
  obtain ⟨d, hd, hsound, hdistinct, hbytes⟩ := Cbor.encode_ok_iff.1 hcs
  obtain ⟨d', hd', hsound', rfl⟩ := Json.encode_ok_iff.1 hbs
  constructor
  · rw [Cbor.decodes_portable hp hs ht hdepth hutf hfloats ⟨hd, hsound, hdistinct, hbytes⟩ hv hcbor
        (noNan_of_finite hfinite) hlen,
          and_iff_right (Cbor.writesNames_of_names hnames hv.inhabits), KeptMember,
          or_iff_right_of_imp (kept_of_bulk (cbor_bulkNumbers _))]
    exact kept_omission_iff (cbor_bulkNumbers _) json_bulkNumbers noField t _ v
  · have hlegible : Json.Legible D 0 d' :=
      Json.legible_of_sound hsuits hsound' (Json.lowerTop_shown hnames hv.inhabits hfinite hd')
    rw [Json.recovers_iff, Json.recoversInto_iff herrors,
      Json.constructs_iff (.ofCbor hp) hcc ha herrors hd' (Json.rendered_print D p cc hlegible) hv
        hjson
        (shaped_zero hp.regular t),
      keptMember_portable (portableStructs_json hs.toPortableStructs)
        (Json.keepsFloats hs.toPortableStructs) (by decide) _ (portable_json ht) hfinite,
      KeptMember, or_iff_right_of_imp (kept_of_bulk json_bulkNumbers)]

/-- A member that is set survives in both formats. -/
theorem survives_preset :
    Cbor.Decodes (Cbor.soleEnv Cbor.preset) {} (.struct 0) [0xA1, 0x61, 0x78, 0x07]
      (.seq [.some (.int 7)]) ∧
      Json.Recovers (Cbor.soleEnv Cbor.preset) {} Json.unitConv (.struct 0) (str "\x7b\"x\":7\x7d")
      (.seq [.some (.int 7)]) := by
  have hproper : Proper (Cbor.soleEnv Cbor.preset) noField (.struct 0) (.seq [.some (.int 7)]) :=
    ⟨(by decide : IntTy.Holds ⟨true, .w32⟩ 7), trivial⟩
  have hkept : Kept (Cbor.soleEnv Cbor.preset) Json.format (· = .omission) noField (.struct 0)
      ((Ty.struct 0).zero (Cbor.soleEnv Cbor.preset)) (.seq [.some (.int 7)]) :=
    ⟨.inr ⟨fun h => Aspect.noConfusion h, trivial⟩, trivial⟩
  have hcs : Cbor.encode (Cbor.soleEnv Cbor.preset) {} (.struct 0) (.seq [.some (.int 7)]) =
    .ok [0xA1, 0x61, 0x78, 0x07] := by
    decide +kernel
  have hbs : Json.encode (Cbor.soleEnv Cbor.preset) {} Json.unitConv (.struct 0)
    (.seq [.some (.int 7)]) =
      .ok (str "\x7b\"x\":7\x7d") := by
    decide +kernel
  have hsurvives :=
    survives_iff (o := {}) (p := {}) (D := {}) (t := .struct 0) Cbor.preset_program
    Cbor.preset_portable
    (fun _ => (by decide : ∀ f ∈ Cbor.preset.fields, Utf8.Valid f.wireName)) Json.unitConv_numbers
      trivial (by decide) rfl rfl
    ⟨by decide, id⟩ rfl (by decide) ⟨by decide, by decide⟩ hproper
      (Unmixed.clear (t := .struct 0) Cbor.preset_unmixed trivial _)
    (Unmixed.clear (t := .struct 0) Cbor.preset_unmixed trivial _) ⟨trivial, trivial⟩ hcs hbs
  exact ⟨hsurvives.1.2 hkept, hsurvives.2.2 hkept⟩

end

end VCodec
