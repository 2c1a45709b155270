import VCodec.Cbor.Portable

/-!
# Types declared deterministic

The declaration of a type overrides the options `deterministic` and `indefinite` of a call, and not
the option `floats`. What is written is the one canonical encoding exactly if that option changes no
float.
-/

namespace VCodec.Cbor

/-! ### The floats of a document -/

mutual

/-- Every float that is written as a number has the property. -/
def Reals (P : FieldMeta → Double → Prop) : Doc → Prop
  | .real f x => P f x
  | .tag _ d => Reals P d
  | .array _ _ ds => RealsEach P ds
  | .map _ _ es | .members _ es => RealsEntries P es
  | _ => True

def RealsEach (P : FieldMeta → Double → Prop) : List Doc → Prop
  | [] => True
  | d :: ds => Reals P d ∧ RealsEach P ds

def RealsEntries (P : FieldMeta → Double → Prop) : List (DocKey × Doc) → Prop
  | [] => True
  | (_, d) :: es => Reals P d ∧ RealsEntries P es

end

/-- The width leaves the float as it is written by default. -/
def SameFloat (floats : FloatWidth) (f : FieldMeta) (x : Double) : Prop :=
  realBytes x (f.floatWidth.getD floats) = realBytes x (f.floatWidth.getD .preferred)

theorem realsEntries_iff {P : FieldMeta → Double → Prop} {es : List (DocKey × Doc)} :
    RealsEntries P es ↔ ∀ e ∈ es, Reals P e.2 := by
  induction es with
  | nil => exact iff_of_true trivial fun _ h => nomatch h
  | cons e es ih => rw [RealsEntries, ih, List.forall_mem_cons]

/-! ### Items under two options -/

section

variable {o o' : Options}

theorem floatHead_eq_iff {x : Double} {w w' : FloatWidth} :
    floatHead x w = floatHead x w' ↔ realBytes x w = realBytes x w' := by
  rw [← floatHead_bytes, ← floatHead_bytes]
  constructor
  · exact fun h => congrArg (·.bytes .simple) h
  · exact Head.bytes_inj

theorem alternate_injective {es es' : List (Item × Item)} (h : alternate es = alternate es') :
    es = es' := by
  induction es generalizing es' with
  | nil =>
    cases es' with
    | nil => exact rfl
    | cons e es' => cases h
  | cons e es ih =>
    cases es' with
    | nil => cases h
    | cons e' es' =>
      rw [alternate_cons, alternate_cons, List.cons.injEq, List.cons.injEq] at h
      rw [ih h.2.2, Prod.ext h.1 h.2.1]

/-- Options that differ in nothing but the width of floats. -/
structure SameShape (o o' : Options) : Prop where
  left : o.deterministic = true
  right : o'.deterministic = true
  preferred : o'.floats = .preferred

theorem strItem_same (hs : SameShape o o') (isText indefinite : Bool) (t : Bytes) :
    strItem o isText indefinite t = strItem o' isText indefinite t := by
  unfold strItem
  rw [if_neg (fun h => h.2 hs.left), if_neg (fun h => h.2 hs.right)]

theorem entries_eq_iff {es : List (DocKey × Doc)}
    (hes : ∀ e ∈ es, docItem o e.2 = docItem o' e.2 ↔ Reals (SameFloat o.floats) e.2) :
    docEntries o es = docEntries o' es ↔ RealsEntries (SameFloat o.floats) es := by
  rw [docEntries_eq, docEntries_eq, List.map_inj_left, realsEntries_iff]
  refine forall_congr' fun e => forall_congr' fun he => ?_
  rw [← hes e he]
  exact ⟨fun h => congrArg Prod.snd h, fun h => Prod.ext rfl h⟩

mutual

theorem docItem_eq_iff (hs : SameShape o o') {d : Doc} (hfits : Fits d) :
    docItem o d = docItem o' d ↔ Reals (SameFloat o.floats) d := by
  cases d with
  | real f x =>
    have hitem : docItem o (.real f x) = docItem o' (.real f x) ↔
        floatHead x (f.floatWidth.getD o.floats) = floatHead x (f.floatWidth.getD o'.floats) :=
      ⟨fun h => (Item.leaf.inj h).2, fun h => congrArg (Item.leaf .simple) h⟩
    rw [hitem, floatHead_eq_iff, hs.preferred]
    exact Iff.rfl
  | text f t => exact iff_of_true (strItem_same hs true f.indefinite t) trivial
  | bytes f t => exact iff_of_true (strItem_same hs false f.indefinite t) trivial
  | tag n d =>
    rw [docItem, docItem, Reals, ← docItem_eq_iff hs hfits.2]
    exact ⟨fun h => (Item.tag.inj h).2, fun h => congrArg _ h⟩
  | array f n ds =>
    rw [docItem, docItem, Reals, ← docItems_eq_iff hs hfits.2.2, if_pos hs.left, if_pos hs.right]
    exact ⟨fun h => (Item.container.inj h).2.2, fun h => congrArg _ h⟩
  | map f n es =>
    obtain ⟨-, -, hes⟩ := hfits
    have hentries := docEntries_eq_iff hs hes
    rw [docItem, docItem, Reals, realsEntries_iff, if_pos hs.left, if_pos hs.right, if_pos hs.left,
      if_pos hs.right,
      ← docEntries_sort hes, ← docEntries_sort hes]
    have hsorted : docEntries o (sortDocs es) = docEntries o' (sortDocs es) ↔
      RealsEntries (SameFloat o.floats) (sortDocs es) :=
      entries_eq_iff fun e he => hentries e ((sortDocs_perm es).mem_iff.1 he)
    rw [realsEntries_iff] at hsorted
    constructor
    · intro h e he
      exact hsorted.1 (alternate_injective (Item.container.inj h).2.2) e
        ((sortDocs_perm es).mem_iff.2 he)
    · intro h
      rw [hsorted.2 fun e he => h e ((sortDocs_perm es).mem_iff.1 he)]
  | members n es =>
    have hentries := docEntries_eq_iff hs hfits.2.2
    rw [docItem, docItem, Reals, if_pos (.inl hs.left),
      if_pos (.inl hs.right), ← entries_eq_iff hentries]
    exact ⟨fun h => alternate_injective (Item.container.inj h).2.2, fun h => by rw [h]⟩
  | _ => exact iff_of_true rfl trivial

theorem docItems_eq_iff (hs : SameShape o o') {ds : List Doc} (hfits : FitsEach ds) :
    docItems o ds = docItems o' ds ↔ RealsEach (SameFloat o.floats) ds := by
  match ds with
  | [] => exact iff_of_true rfl trivial
  | d :: ds =>
    rw [docItems, docItems, RealsEach, List.cons.injEq, docItem_eq_iff hs hfits.1,
      docItems_eq_iff hs hfits.2]

theorem docEntries_eq_iff (hs : SameShape o o') {es : List (DocKey × Doc)}
    (hfits : FitsEntries es) :
    ∀ e ∈ es, docItem o e.2 = docItem o' e.2 ↔ Reals (SameFloat o.floats) e.2 := by
  match es with
  | [] => exact List.forall_mem_nil _
  | (k, d) :: es =>
    exact List.forall_mem_cons.2 ⟨docItem_eq_iff hs hfits.2.1, docEntries_eq_iff hs hfits.2.2⟩

end

/-! ### The options of a call -/

/-- A value of the types that are there to be read back, without NaN. -/
structure Restorable (env : Env) (t : Ty) (v : Val) : Prop where
  program : PortableProgram env
  type : Portable env traits t
  proper : Proper env noField t v
  numbers : NoNan v

/-- The bytes are those of the default options, up to what stands before them, and lead back to the
value. -/
structure IgnoresOptions (env : Env) (o : Options) (t : Ty) (v : Val) (bs : Bytes) : Prop where
  same : ∃ body, bs = selfDescribeBytes env (effective env o t) t ++ body ∧
    encode env {} t v = .ok (selfDescribeBytes env (effective env {} t) t ++ body)
  back : Restorable env t v → Decodes env {} t bs v

section

variable {env : Env} {t : Ty} {v : Val} {bs : Bytes} {d : Doc}

/-- What the declaration leaves of the options of a call. -/
structure Overridden (o o' : Options) : Prop where
  deterministic : o'.deterministic = true
  floats : o'.floats = o.floats
  selfDescribe : o'.selfDescribe = o.selfDescribe
  depth : o'.maxDepth = o.maxDepth
  utf8 : o'.validateUtf8 = o.validateUtf8

theorem effective_overridden (o : Options) (hdet : isDeterministicType env t = true) :
    Overridden o (effective env o t) := by
  unfold effective withTypeDeterminismEncode
  rw [hdet]
  exact ⟨rfl, rfl, rfl, rfl, rfl⟩

theorem format_eq {o o' : Options} (hdet : o.deterministic = o'.deterministic)
    (hfloats : o.floats = o'.floats) :
    format o = format o' := by
  unfold format unchunked
  rw [hdet, hfloats]

mutual

theorem reals_of_forall {P : FieldMeta → Double → Prop} (h : ∀ f x, P f x) (d : Doc) :
    Reals P d := by
  cases d with
  | real f x => exact h f x
  | tag n d => exact reals_of_forall h d
  | array f n ds => exact realsEach_of_forall h ds
  | map f n es | members n es => exact realsEntries_of_forall h es
  | _ => exact trivial

theorem realsEach_of_forall {P : FieldMeta → Double → Prop} (h : ∀ f x, P f x) (ds : List Doc) :
    RealsEach P ds := by
  match ds with
  | [] => exact trivial
  | d :: ds => exact ⟨reals_of_forall h d, realsEach_of_forall h ds⟩

theorem realsEntries_of_forall
    {P : FieldMeta → Double → Prop} (h : ∀ f x, P f x) (es : List (DocKey × Doc)) :
    RealsEntries P es := by
  match es with
  | [] => exact trivial
  | (_, d) :: es => exact ⟨reals_of_forall h d, realsEntries_of_forall h es⟩

end

/-- The bytes of a document tell its floats apart. -/
theorem wire_eq_iff {o o' : Options} (hs : SameShape o o') (hsound : Sound o 0 d)
    (hsound' : Sound o' 0 d) (hfits : Fits d) :
    wire o d = wire o' d ↔ Reals (SameFloat o.floats) d := by
  rw [← docItem_eq_iff hs hfits, ← docItem_bytes hfits, ← docItem_bytes hfits]
  refine ⟨fun h => ?_, fun h => congrArg Item.bytes h⟩
  have hlax : ∀ {o : Options}, Sound o 0 d → Sat LaxNode o.maxDepth 0 (docItem o d) :=
    fun {o} hsound =>
    (written_docItem o hsound hfits).imp fun _ h => h.1
  exact ((hlax hsound).unambiguous _ _ _ [] [] (hlax hsound') (congrArg (· ++ []) h)).1

mutual

/-- A width that has room for a float has room for it, whatever the others are. -/
theorem sound_effective {o o' : Options} (hdepth : o.maxDepth = o'.maxDepth)
    (hutf : o.validateUtf8 = o'.validateUtf8) (hfloats : o'.floats = .preferred) {n : Nat} {d : Doc}
    (h : Sound o n d) : Sound o' n d := by
  cases d with
  | real f x =>
    have h : FitsWidth x (f.floatWidth.getD o.floats) := h
    show FitsWidth x (f.floatWidth.getD o'.floats)
    cases hw : f.floatWidth with
    | some w =>
      rw [hw] at h
      exact h
    | none =>
      rw [Option.getD_none, hfloats]
      exact trivial
  | text f t => exact fun hv => h (hutf.trans hv)
  | tag n d => exact sound_effective hdepth hutf hfloats (d := d) h
  | array f c ds => exact ⟨hdepth ▸ h.1, soundAll_effective hdepth hutf hfloats h.2⟩
  | map f c es | members c es =>
    exact ⟨hdepth ▸ h.1, soundEntries_effective hdepth hutf hfloats h.2⟩
  | _ => exact trivial

theorem soundAll_effective
    {o o' : Options} (hdepth : o.maxDepth = o'.maxDepth) (hutf : o.validateUtf8 = o'.validateUtf8)
    (hfloats : o'.floats = .preferred) {n : Nat} {ds : List Doc} (h : SoundAll o n ds) :
    SoundAll o' n ds := by
  match ds with
  | [] => exact trivial
  | d :: ds =>
    exact ⟨sound_effective hdepth hutf hfloats h.1, soundAll_effective hdepth hutf hfloats h.2⟩

theorem soundEntries_effective {o o' : Options} (hdepth : o.maxDepth = o'.maxDepth)
    (hutf : o.validateUtf8 = o'.validateUtf8) (hfloats : o'.floats = .preferred) {n : Nat}
    {es : List (DocKey × Doc)} (h : SoundEntries o n es) : SoundEntries o' n es := by
  match es with
  | [] => exact trivial
  | (k, d) :: es =>
    refine ⟨?_, sound_effective hdepth hutf hfloats h.2.1,
      soundEntries_effective hdepth hutf hfloats h.2.2⟩
    cases k with
    | text k => exact fun hv => h.1 (hutf.trans hv)
    | _ => exact trivial

end

/-- The document of an encoding is that of every encoding with no less room. -/
theorem Encoding.with {o p : Options} (h : Encoding env o t v d bs)
    (hdepth : o.maxDepth = p.maxDepth) (hutf : o.validateUtf8 = p.validateUtf8)
    (hdet : o.deterministic = p.deterministic) (hfloats : p.floats = .preferred) :
    Encoding env p t v d (selfDescribeBytes env p t ++ wire p d) where
  lowered := h.lowered
  sound := sound_effective hdepth hutf hfloats h.sound
  distinct hd := h.distinct (hdet.trans hd)
  bytes := rfl

theorem encode_ok {o : Options} (h : Encoding env (effective env o t) t v d bs) :
    encode env o t v = .ok bs :=
  encode_ok_iff.2 ⟨d, h.lowered, h.sound, h.distinct, h.bytes⟩

/-- The names of the value are text, and what is put in the place of the members that are left out
is what they were. -/
def Complete (env : Env) (t : Ty) (v : Val) : Prop :=
  WritesNames env t v ∧ KeptMember env (format (effective env {} t)) (· = .omission) noField t
    (t.zero env) v

/-- `floats` changes no float of the value. -/
def KeepsWidths (env : Env) (o : Options) (t : Ty) (v : Val) : Prop :=
  ∀ d, lowerTop env traits memberOrder t v = some d → Reals (SameFloat o.floats) d

theorem ignores_of_clear {o : Options} (hp : Program env) (hdet : isDeterministicType env t = true)
    (hdepth : o.maxDepth = 256) (hutf : o.validateUtf8 = true) (hv : Inhabits env t v)
    (henc : encode env o t v = .ok bs) (hlen : bs.length < 2 ^ 48)
    (hclear : Restorable env t v → Clear env (format (effective env {} t)) noField t v) :
    IgnoresOptions env o t v bs ↔ KeepsWidths env o t v ∧
      (Restorable env t v → Complete env t v) := by
  obtain ⟨d, hd, hsound, hdistinct, hbytes⟩ := encode_ok_iff.1 henc
  have h : Encoding env (effective env o t) t v d bs := ⟨hd, hsound, hdistinct, hbytes⟩
  have hfits := h.fits hp.typed hv (hlen.trans (by decide))
  -- the call with the floats of the default options
  have hown := effective_overridden o hdet
  have hcall := effective_overridden { o with floats := .preferred } hdet
  have hdefault := effective_overridden {} hdet
  have hcalled := h.with (p := effective env { o with floats := .preferred } t)
    (hown.depth.trans hcall.depth.symm)
    (hown.utf8.trans hcall.utf8.symm) (hown.deterministic.trans hcall.deterministic.symm)
      hcall.floats
  have hencoded :=
    h.with (p := effective env {} t) (hown.depth.trans (hdepth.trans hdefault.depth.symm))
    (hown.utf8.trans (hutf.trans hdefault.utf8.symm))
      (hown.deterministic.trans hdefault.deterministic.symm) hdefault.floats
  have hwire : wire (effective env o t) d = wire (effective env {} t) d ↔
    Reals (SameFloat o.floats) d := by
    rw [← hown.floats]
    exact wire_eq_iff ⟨hown.deterministic, hdefault.deterministic, hdefault.floats⟩ hsound
      hencoded.sound hfits
  have hpreferred : wire (effective env { o with floats := .preferred } t) d =
    wire (effective env {} t) d :=
    (wire_eq_iff ⟨hcall.deterministic, hdefault.deterministic, hdefault.floats⟩ hcalled.sound
      hencoded.sound hfits).2
      (reals_of_forall (fun f x => by rw [SameFloat, hcall.floats]) d)
  have hlead : selfDescribeBytes env (effective env { o with floats := .preferred } t) t =
      selfDescribeBytes env (effective env o t) t := by
    unfold selfDescribeBytes
    rw [hcall.selfDescribe, hown.selfDescribe]
  have hformat : format (effective env { o with floats := .preferred } t) =
    format (effective env {} t) :=
    format_eq (hcall.deterministic.trans hdefault.deterministic.symm)
      (hcall.floats.trans hdefault.floats.symm)
  have hback : wire (effective env o t) d = wire (effective env {} t) d →
      Restorable env t v → (Decodes env {} t bs v ↔ Complete env t v) := by
    intro heq hr
    have hclear := hclear hr
    obtain ⟨hs, ht, hv, hnan⟩ := hr
    have hsame : selfDescribeBytes env (effective env { o with floats := .preferred } t) t ++
        wire (effective env { o with floats := .preferred } t) d = bs := by
      rw [hlead, hpreferred, ← heq]
      exact hbytes.symm
    rw [hsame] at hcalled
    unfold Complete
    rw [← hformat] at hclear ⊢
    exact decodes_portable (o := { o with floats := .preferred }) hp hs ht hdepth.le hutf rfl
      hcalled hv hclear hnan hlen
  have hlowered : KeepsWidths env o t v ↔ Reals (SameFloat o.floats) d := by
    unfold KeepsWidths
    rw [hd]
    exact ⟨fun h => h d rfl, fun h d' hd' => by cases hd'; exact h⟩
  rw [hlowered, ← hwire]
  constructor
  · rintro ⟨⟨body, hbody, hdefaulted⟩, hdecodes⟩
    rw [encode_ok hencoded, Except.ok.injEq] at hdefaulted
    have heq : wire (effective env o t) d = wire (effective env {} t) d := by
      rw [List.append_cancel_left hdefaulted, List.append_cancel_left (hbytes.symm.trans hbody)]
    exact ⟨heq, fun hr => (hback heq hr).1 (hdecodes hr)⟩
  · rintro ⟨heq, hkept⟩
    refine ⟨⟨_, hbytes, ?_⟩, fun hr => (hback heq hr).2 (hkept hr)⟩
    rw [heq]
    exact encode_ok hencoded

/-- A type declared deterministic ignores the options of a call exactly where `floats` changes no
float, as far as its values come back at all. -/
theorem ignoresOptions_iff
    {o : Options} (hp : Program env) (hdet : isDeterministicType env t = true)
    (hdepth : o.maxDepth = 256) (hutf : o.validateUtf8 = true) (hv : Inhabits env t v)
    (henc : encode env o t v = .ok bs) (hlen : bs.length < 2 ^ 48) :
    (KeepsWidths env o t v ∧
        (Restorable env t v → Clear env (format (effective env {} t)) noField t v ∧
          Complete env t v) →
      IgnoresOptions env o t v bs) ∧
    (IgnoresOptions env o t v bs →
      (Restorable env t v → Clear env (format (effective env {} t)) noField t v) →
      KeepsWidths env o t v ∧ (Restorable env t v → Complete env t v)) := by
  have hiff := ignores_of_clear hp hdet hdepth hutf hv henc hlen
  exact ⟨fun h => (hiff fun hr => (h.2 hr).1).2 ⟨h.1, fun hr => (h.2 hr).2⟩,
    fun h hclear => (hiff hclear).1 h⟩

end

end

/-- `struct [[=cbor::deterministic]] sample { double x; };` -/
def sample : StructDef where
  name := str "sample"
  deterministic := true
  fields := [{
    info := { isMember := true, identifier := str "x" }
    ty := .double
    wireName := str "x"
    required := true
    initial := .real (doubleOfBits 0) }]

theorem sample_program : Program (soleEnv sample) := by
  refine program_of (fun _ f hf => ?_) fun _ =>
    ⟨by decide, by decide, by decide, nofun, by decide, by decide⟩
  obtain rfl := List.mem_singleton.1 hf
  exact ⟨.whole rfl, fun _ h => by cases h⟩

/-- `1.5` -/
def threeHalves : Double := doubleOfBits 0x3FF8000000000000

theorem sample_proper : Proper (soleEnv sample) noField (.struct 0) (.seq [.real threeHalves]) :=
  ⟨trivial, trivial⟩

theorem sample_encoded :
    encode (soleEnv sample) { floats := .half } (.struct 0) (.seq [.real threeHalves]) =
      .ok [0xA1, 0x61, 0x78, 0xF9, 0x3E, 0x00] ∧
      encode (soleEnv sample) {} (.struct 0) (.seq [.real threeHalves]) =
        .ok [0xA1, 0x61, 0x78, 0xF9, 0x3E, 0x00] := by
  decide +kernel

theorem sample_unmixed : UnmixedStructs (soleEnv sample) := by
  intro _ f hf
  obtain rfl := List.mem_singleton.1 hf
  exact trivial

/-- One and a half is a half in any case. -/
theorem ignoresOptions_iff_witness :
    IgnoresOptions (soleEnv sample) { floats := .half } (.struct 0) (.seq [.real threeHalves])
    [0xA1, 0x61, 0x78, 0xF9, 0x3E, 0x00] := by
  refine (ignoresOptions_iff sample_program rfl rfl rfl sample_proper.inhabits sample_encoded.1
    (by decide)).1 ⟨?_, fun _ =>
    ⟨Unmixed.clear (t := .struct 0) sample_unmixed trivial _, ?_, .inr ⟨.inr nofun, trivial⟩⟩⟩
  · rintro d ⟨⟩
    exact ⟨(by decide +kernel : realBytes threeHalves .half = realBytes threeHalves .preferred),
      trivial⟩
  · rintro d ⟨⟩
    exact ⟨(by decide : Utf8.Valid (str "x")), trivial, trivial⟩

/-- The width of the call is written. -/
theorem ignoresOptions_not_double :
    encode (soleEnv sample) { floats := .double } (.struct 0) (.seq [.real threeHalves]) =
        .ok [0xA1, 0x61, 0x78, 0xFB, 0x3F, 0xF8, 0, 0, 0, 0, 0, 0] ∧
      ¬ IgnoresOptions (soleEnv sample) { floats := .double } (.struct 0) (.seq [.real threeHalves])
        [0xA1, 0x61, 0x78, 0xFB, 0x3F, 0xF8, 0, 0, 0, 0, 0, 0] := by
  refine ⟨rfl, ?_⟩
  rintro ⟨⟨body, hbody, hdefault⟩, -⟩
  have hcall : selfDescribeBytes (soleEnv sample)
    (effective (soleEnv sample) { floats := .double } (.struct 0)) (.struct 0) = [] := rfl
  have hown : selfDescribeBytes (soleEnv sample) (effective (soleEnv sample) {} (.struct 0))
    (.struct 0) = [] := rfl
  rw [sample_encoded.2, Except.ok.injEq, hown, List.nil_append] at hdefault
  rw [hcall, List.nil_append, ← hdefault] at hbody
  exact absurd hbody (by decide)

end VCodec.Cbor
