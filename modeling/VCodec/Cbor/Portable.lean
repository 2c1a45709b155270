import VCodec.Cbor.Reorder
import VCodec.Cbor.MemberOrder
import VCodec.Core.Universe

/-!
# Portable types in CBOR

A value of a type that owns what it holds comes back in every wire form, but for what is put in the
place of the members that are left out. A type declared `cbor::deterministic` overrides the options
of the call, but for the width of floats.
-/

namespace VCodec.Cbor

/-! ### Documents of portable types -/

/-- The structs of a program whose members have no pinned float and no chunked string, and whose
types have no tags of their own. -/
structure PortableProgram (env : Env) : Prop extends PortableStructs env traits where
  unpinned : ∀ id, ∀ f ∈ (env.structs id).fields, f.info.floatWidth = none
  unchunked : ∀ id, ∀ f ∈ (env.structs id).fields, f.info.indefinite = false
  untagged : ∀ id, (env.structs id).tags = []

section

variable {env : Env} {o : Options} {id : Nat}

theorem floatHead_preferred (x : Double) :
    PreferredFloat (floatHead x .preferred).ai (floatHead x .preferred).value ∧
      (x.isNan = false → floatBack x .preferred = x) := by
  obtain ⟨h, hbytes, -, hpreferred, hback⟩ := preferredBytes_eq x
  obtain rfl : floatHead x .preferred = h :=
    Head.bytes_inj ((floatHead_bytes x .preferred).trans hbytes)
  exact ⟨hpreferred, hback⟩

theorem keyOf_injective (hp : Program env) {i j : Nat} {f g : Field}
    (hf : (env.structs id).fields[i]? = some f) (hg : (env.structs id).fields[j]? = some g)
    (h : keyItem (keyOf traits (env.structs id) f) = keyItem (keyOf traits (env.structs id) g)) :
    i = j := by
  rcases keyItem_keyOf (hp.typed.keys id f (List.mem_of_getElem? hf))
    (hp.typed.keys id g (List.mem_of_getElem? hg)) h with
    ⟨k, hkf, hkg⟩ | hname
  · exact Option.some.inj ((hp.vetted.findKey hf hkf).symm.trans (hp.vetted.findKey hg hkg))
  · have hfound := hp.vetted.find hf
    rw [hname, hp.vetted.find hg] at hfound
    exact (Option.some.inj hfound).symm

/-- The keys that are written of a struct ascend. -/
theorem members_ascend (hp : Program env) {es : List (DocKey × Doc)} (hfits : FitsEntries es)
    (hkeys : (es.map Prod.fst).Sublist ((memberOrder (env.structs id)).filterMap fun i =>
      (env.structs id).fields[i]?.map (keyOf traits (env.structs id)))) :
    (es.map fun e => wireKey e.1).Pairwise (· < ·) := by
  have hordered := memberOrder_sorted (env.structs id)
  have hnodup : (memberOrder (env.structs id)).Pairwise (· ≠ ·) :=
    (memberOrder_perm _).nodup_iff.2 List.nodup_range
  have hall : ((memberOrder (env.structs id)).filterMap fun i =>
      (env.structs id).fields[i]?.map (keyOf traits (env.structs id))).Pairwise fun j k =>
        wireKey j ≤ wireKey k ∧ keyItem j ≠ keyItem k := by
    rw [List.pairwise_filterMap]
    refine (hordered.and hnodup).imp fun {i j} hij => ?_
    rintro k hk l hl
    obtain ⟨f, hf, rfl⟩ := Option.map_eq_some_iff.1 hk
    obtain ⟨g, hg, rfl⟩ := Option.map_eq_some_iff.1 hl
    refine ⟨?_, fun h => hij.2 (keyOf_injective hp hf hg h)⟩
    have hle := hij.1
    rw [List.getD_eq_getElem?_getD, List.getD_eq_getElem?_getD, List.getElem?_map,
      List.getElem?_map, hf, hg] at hle
    rw [wireKey_keyOf, wireKey_keyOf]
    exact hle
  have hpair : es.Pairwise fun e e' => wireKey e.1 ≤ wireKey e'.1 ∧ keyItem e.1 ≠ keyItem e'.1 :=
    List.pairwise_map.1 (hall.sublist hkeys)
  have hes := fitsEntries_iff.1 hfits
  rw [List.pairwise_map]
  refine hpair.imp_of_mem fun {e e'} he he' h => lt_of_le_of_ne h.1 fun heq => ?_
  exact h.2 (wireKey_injective (hes e he).1 (hes e' he').1 heq)

mutual

/-- The names that stand in the document as keys are UTF-8. -/
def Named : Doc → Prop
  | .tag _ d => Named d
  | .array _ _ ds => NamedEach ds
  | .map _ _ es | .members _ es => NamedEntries es
  | _ => True

def NamedEach : List Doc → Prop
  | [] => True
  | d :: ds => Named d ∧ NamedEach ds

def NamedEntries : List (DocKey × Doc) → Prop
  | [] => True
  | (k, d) :: es => LegibleKey k ∧ Named d ∧ NamedEntries es

end

/-- The names that are written of the value are UTF-8. -/
def WritesNames (env : Env) (t : Ty) (v : Val) : Prop :=
  ∀ d, lowerTop env traits memberOrder t v = some d → Named d

mutual

theorem named_of_legible {strict : Bool} {d : Doc} (h : Legible o strict d) : Named d := by
  cases d with
  | tag n d => exact named_of_legible (d := d) h
  | array f n ds => exact namedEach_of_legible h
  | map f n es => exact namedEntries_of_legible h
  | members n es => exact namedEntries_of_legible h.2
  | _ => exact trivial

theorem namedEach_of_legible {strict : Bool} {ds : List Doc} (h : LegibleEach o strict ds) :
    NamedEach ds := by
  match ds with
  | [] => exact trivial
  | d :: ds => exact ⟨named_of_legible h.1, namedEach_of_legible h.2⟩

theorem namedEntries_of_legible {strict : Bool} {es : List (DocKey × Doc)}
    (h : LegibleEntries o strict es) :
    NamedEntries es := by
  match es with
  | [] => exact trivial
  | (k, d) :: es => exact ⟨h.1, named_of_legible h.2.1, namedEntries_of_legible h.2.2⟩

end

theorem namedEach_iff {ds : List Doc} : NamedEach ds ↔ ∀ d ∈ ds, Named d := by
  induction ds with
  | nil => exact iff_of_true trivial fun _ h => nomatch h
  | cons d ds ih => rw [NamedEach, ih, List.forall_mem_cons]

theorem namedEntries_iff {es : List (DocKey × Doc)} :
    NamedEntries es ↔ ∀ e ∈ es, LegibleKey e.1 ∧ Named e.2 := by
  induction es with
  | nil => exact iff_of_true trivial fun _ h => nomatch h
  | cons e es ih => rw [NamedEntries, ih, List.forall_mem_cons, and_assoc]

/-- The names of members are all that is written by name. -/
def namedRules (hnames : ∀ id, ∀ f ∈ (env.structs id).fields, Utf8.Valid f.wireName) :
    DocRules env traits memberOrder where
  doc := Named
  key := LegibleKey
  info _ := True
  info_none := trivial
  info_member _ _ _ := trivial
  null := trivial
  boolean _ := trivial
  int {f k i} _ _ := by
    unfold intDoc
    split <;> exact trivial
  real _ := trivial
  text _ := trivial
  bytes _ := trivial
  seconds _ _ := trivial
  wholeSeconds _ := trivial
  range _ _ := trivial
  tags {f t d} _ hd := by
    induction traits.expectedTags env f t with
    | nil => exact hd
    | cons n ts ih => exact ih
  array _ _ hds := namedEach_iff.2 hds
  map _ _ hes := namedEntries_iff.2 hes
  members _ hes _ := namedEntries_iff.2 hes
  key_text _ := trivial
  key_value := (by decide : Utf8.Valid variantValueKey)
  key_int {k i} _ := by split <;> exact trivial
  key_member id f hf := by
    unfold keyOf
    cases traits.integerKey (env.structs id) f with
    | some k => exact trivial
    | none => exact hnames id f hf

theorem writesNames_of_names (hnames : ∀ id, ∀ f ∈ (env.structs id).fields, Utf8.Valid f.wireName)
    {t : Ty} {v : Val} (hv : Inhabits env t v) : WritesNames env t v :=
  fun _ hd => (namedRules hnames).lowerTop memberOrder_perm hv hd

/-- The reader takes the documents of portable types, if their names are text. -/
def legibleRules (hp : Program env) (hs : PortableProgram env) (strict : Bool)
    (hfloats : o.floats = .preferred) :
    DocRules env traits memberOrder where
  doc d := Fits d → Named d → Legible o strict d
  key _ := True
  info f := f.floatWidth = none ∧ f.indefinite = false
  info_none := ⟨rfl, rfl⟩
  info_member id f hf := ⟨hs.unpinned id f hf, hs.unchunked id f hf⟩
  null _ _ := trivial
  boolean _ _ _ := trivial
  int {f k i} _ _ _ _ := by
    unfold intDoc
    split <;> exact trivial
  real {f x} hf _ := by
    intro _ _
    rw [hf.1, Option.getD_none, hfloats]
    exact (floatHead_preferred x).1
  text hf _ _ hchunks := by
    rw [hf.2] at hchunks
    exact absurd hchunks.1 Bool.false_ne_true
  bytes _ _ _ := trivial
  seconds _ _ _ _ := trivial
  wholeSeconds _ _ _ := trivial
  range _ _ _ _ := trivial
  tags {f t d} _ hd hfits hnamed := by
    generalize traits.expectedTags env f t = ts at hfits hnamed
    induction ts with
    | nil => exact hd hfits hnamed
    | cons n ts ih => exact ih hfits.2 hnamed
  array _ _ hds hfits hnamed := legibleEach_iff.2 fun d hd =>
    hds d hd (fitsEach_iff.1 hfits.2.2 d hd) (namedEach_iff.1 hnamed d hd)
  map _ _ hes hfits hnamed := legibleEntries_iff.2 fun e he =>
    have hkey := namedEntries_iff.1 hnamed e he
    ⟨hkey.1, (hes e he).2 (fitsEntries_iff.1 hfits.2.2 e he).2 hkey.2⟩
  members _ hes hkeys hfits hnamed :=
    ⟨fun _ => members_ascend hp hfits.2.2 hkeys, legibleEntries_iff.2 fun e he =>
    have hkey := namedEntries_iff.1 hnamed e he
    ⟨hkey.1, (hes e he).2 (fitsEntries_iff.1 hfits.2.2 e he).2 hkey.2⟩⟩
  key_text _ := trivial
  key_value := trivial
  key_int _ := trivial
  key_member _ _ _ := trivial

end

/-! ### Equal values have one encoding -/

namespace Reordered

theorem items {vs ws : List Val} (h : List.Forall₂ Reordered vs ws) (l : List Val) :
    Reordered (.seq (l ++ vs)) (.seq (l ++ ws)) := by
  induction h generalizing l with
  | nil => exact .refl _
  | @cons v w vs ws hvw _ ih =>
    have hrest := ih (l ++ [w])
    rw [List.append_assoc, List.append_assoc] at hrest
    exact (Reordered.item hvw).trans hrest

theorem values {es es' : List (Key × Val)}
    (h : List.Forall₂ (fun e e' => e'.1 = e.1 ∧ Reordered e.2 e'.2) es es') (l : List (Key × Val)) :
    Reordered (.map (l ++ es)) (.map (l ++ es')) := by
  induction h generalizing l with
  | nil => exact .refl _
  | @cons e e' es es' hee _ ih =>
    obtain ⟨k, v⟩ := e
    obtain ⟨k', w⟩ := e'
    obtain ⟨rfl, hvw⟩ := hee
    have hrest := ih (l ++ [(k', w)])
    rw [List.append_assoc, List.append_assoc] at hrest
    exact (Reordered.value hvw).trans hrest

end Reordered

/-- No float is a NaN. -/
def NoNan (v : Val) : Prop := v.Floats (fun x => x.isNan = false) (fun x => x.isNan = false)

section

variable {env : Env} {o D : Options} {t : Ty} {v old : Val} {d : Doc} {bs : Bytes}

theorem keepsFloats (hs : PortableProgram env) (hfloats : o.floats = .preferred) :
    KeepsFloats env (format o) (fun f => f.floatWidth = none ∧ f.tagKey ≠ some [])
    (fun x => x.isNan = false)
      (fun x => x.isNan = false) where
  names _ := rfl
  none := ⟨rfl, by decide⟩
  members id f hf := ⟨hs.unpinned id f hf, hs.tagged id f hf⟩
  discriminator hf := hf.2
  single {f x} hf hx := by
    refine ⟨doubleOfSingle x, ?_, singleOfDouble_doubleOfSingle hx⟩
    show some (floatBack (doubleOfSingle x) (f.floatWidth.getD o.floats)) = some (doubleOfSingle x)
    have hx' : (doubleOfSingle x).isNan = false := Ieee.Binary.isNan_convert hx
    rw [hf.1, Option.getD_none, hfloats, (floatHead_preferred _).2 hx']
  double {f x} hf hx := by
    show some (floatBack x (f.floatWidth.getD o.floats)) = some x
    rw [hf.1, Option.getD_none, hfloats, (floatHead_preferred _).2 hx]

theorem not_described (hs : PortableProgram env) (h : lowerTop env traits memberOrder t v = some d)
    (ht : Portable env traits t) : ¬ Described d := by
  have htags : ∀ {u : Ty}, Portable env traits u → traits.expectedTags env noField u = [] := by
    intro u hu
    cases u with
    | time c => exact hu.elim
    | struct id => exact hs.untagged id
    | _ => exact rfl
  unfold lowerTop at h
  have hplain : ∀ {u : Ty} {w : Val}, Portable env traits u →
      lowerFieldValue env traits noField (lower env traits memberOrder noField t v) u w = some d →
        d.Plain := by
    intro u w hu hd
    induction u, w using lowerFieldValue.induct with
    | case1 u w ih => exact ih hu.2 hd
    | case2 u w hw =>
      rw [lowerFieldValue_null hw] at hd
      cases hd
      exact trivial
    | case3 u w _ hu' =>
      rw [lowerFieldValue_present hu', htags hu] at hd
      obtain ⟨x, hx, rfl⟩ := Option.map_eq_some_iff.1 hd
      rw [if_neg (show ¬ traits.bulkRange noField u = true from Bool.false_ne_true)] at hx
      exact plain_lower hx
  intro hdescribed
  have h := hplain ht h
  cases d <;> first | exact hdescribed | exact h

/-- A value of a portable type comes back from its encoding but for what is left out. -/
theorem constructs_portable (hp : Program env) (hs : PortableProgram env) (hsuits : Suits o D)
    (htakes : Takes D) (ha : Addressable D bs) (hfloats : o.floats = .preferred)
    (h : Encoding env o t v d bs) (ht : Portable env traits t) (hv : Proper env noField t v)
    (hclear : Clear env (format o) noField t v) (hnan : NoNan v) (hold : Shaped env t old) :
    Constructs env D bs t old v ↔ WritesNames env t v ∧
      KeptMember env (format o) (· = .omission) noField t old v := by
  have hfits := h.fits hp.typed hv.inhabits (ha.length.trans (by decide))
  have hlegible : Legible o D.requireDeterministic d ↔ WritesNames env t v := by
    unfold WritesNames
    rw [h.lowered]
    constructor
    · rintro hlegible _ ⟨⟩
      exact named_of_legible hlegible
    · exact fun hnamed => (legibleRules hp hs D.requireDeterministic hfloats).lowerTop
        memberOrder_perm hv.inhabits h.lowered
        hfits (hnamed d rfl)
  have hplain : ¬ Swallowed env o t d := fun hd => not_described hs h.lowered ht hd.2
  rw [constructs_iff hp hsuits htakes ha h hv hclear hold, hlegible, and_iff_right hplain,
    keptMember_portable hs.toPortableStructs (keepsFloats hs hfloats) ⟨rfl, by decide⟩ old ht hnan]

/-- The reader with its default options takes what a writer with the default limits has written of a
type. -/
theorem suits_default (env : Env) (t : Ty) (hdepth : o.maxDepth ≤ 256)
    (hutf : o.validateUtf8 = true) :
    Suits (effective env o t) (readWith env {} t) := by
  unfold effective withTypeDeterminismEncode readWith withTypeDeterminism Options.strict
  cases isDeterministicType env t with
  | true => exact ⟨hutf, rfl, hdepth, fun _ => rfl⟩
  | false => exact ⟨hutf, rfl, hdepth, fun h => by cases h⟩

theorem takes_default (env : Env) (t : Ty) : Takes (readWith env {} t) := by
  unfold readWith withTypeDeterminism Options.strict
  split <;> exact ⟨rfl, rfl, rfl, rfl⟩

theorem addressable_default (env : Env) (t : Ty) (hlen : bs.length < 2 ^ 48) :
    Addressable (readWith env {} t) bs := by
  unfold readWith withTypeDeterminism Options.strict
  split <;> exact ⟨hlen, by decide⟩

theorem decodes_portable (hp : Program env) (hs : PortableProgram env) (ht : Portable env traits t)
    (hdepth : o.maxDepth ≤ 256) (hutf : o.validateUtf8 = true) (hfloats : o.floats = .preferred)
    (h : Encoding env (effective env o t) t v d bs) (hv : Proper env noField t v)
    (hclear : Clear env (format (effective env o t)) noField t v)
    (hnan : NoNan v) (hlen : bs.length < 2 ^ 48) :
    Decodes env {} t bs v ↔
      WritesNames env t v ∧ KeptMember env (format (effective env o t)) (· = .omission) noField t
        (t.zero env) v := by
  have hfloats' : (effective env o t).floats = .preferred := by
    unfold effective withTypeDeterminismEncode
    split <;> exact hfloats
  rw [decodes_iff, decodesInto_iff rfl]
  exact constructs_portable hp hs (suits_default env t hdepth hutf) (takes_default env t)
    (addressable_default env t hlen)
    hfloats' h ht hv hclear hnan (shaped_zero hp.regular t)

end

/-! ### Programs that consist of schemas -/

instance (i : Int) : Decidable (Int64Range i) := inferInstanceAs (Decidable (_ ∧ _))

/-- A program whose structs are the given ones. -/
def schemaEnv (structs : Nat → StructDef) : Env where
  __ := (default : Env)
  structs := structs

/-- What the audit asks of a struct. -/
structure SchemaAudit (s : StructDef) : Prop where
  names : (s.fields.flatMap fun f => f.wireName :: f.aliases).Nodup
  keys : (s.fields.filterMap (integerKey s)).Nodup
  range : ∀ f ∈ s.fields, ∀ k ∈ integerKey s f, Int64Range k
  transparent : s.transparent = true → s.fields.length = 1
  memberTags : ∀ f ∈ s.fields, ∀ n ∈ f.info.tags, n < 2 ^ 64
  tags : ∀ n ∈ s.tags, n < 2 ^ 64

theorem program_of {structs : Nat → StructDef} (hregular : (schemaEnv structs).Regular)
    (h : ∀ id, SchemaAudit (structs id)) :
    Program (schemaEnv structs) where
  regular := hregular
  vetted := {
    names := fun id => (h id).names
    keys := fun id => (h id).keys
    integers := fun id f hf k hk => Int.le_of_lt_add_one ((h id).range f hf k hk).2
    transparent := fun id => (h id).transparent }
  typed := {
    keys := fun id => (h id).range
    memberTags := fun id => (h id).memberTags
    structTags := fun id => (h id).tags
    seconds := fun _ _ => (by decide : Int64Range 0) }

/-- A program whose only struct is the given one. -/
abbrev soleEnv (s : StructDef) : Env := schemaEnv fun _ => s

/-- `struct preset { [[=skip_if_null]] std::optional<std::int32_t> x = 5; };` -/
def preset : StructDef where
  name := str "preset"
  fields := [{
    info := { isMember := true, identifier := str "x" }
    ty := .optional (.int ⟨true, .w32⟩)
    wireName := str "x"
    skipIfNull := true
    required := false
    initial := .some (.int 5) }]

theorem preset_program : Program (soleEnv preset) := by
  refine program_of (fun _ f hf => ?_) fun _ =>
    ⟨by decide, by decide, by decide, nofun, by decide, by decide⟩
  obtain rfl := List.mem_singleton.1 hf
  exact ⟨.whole rfl, fun _ h => by cases h⟩

theorem preset_portable : PortableProgram (soleEnv preset) where
  plain _ := rfl
  types _ f hf := by
    obtain rfl := List.mem_singleton.1 hf
    exact ⟨nofun, trivial⟩
  serialized _ := (by decide : ∀ f ∈ preset.fields, f.skipSerializing = false)
  deserialized _ := (by decide : ∀ f ∈ preset.fields, f.skipDeserializing = false)
  kept _ := (by decide : ∀ f ∈ preset.fields, f.skipIfDefault = false)
  nullable _ f hf _ := by
    obtain rfl := List.mem_singleton.1 hf
    exact rfl
  tagged _ := (by decide : ∀ f ∈ preset.fields, f.info.tagKey ≠ some [])
  unpinned _ := (by decide : ∀ f ∈ preset.fields, f.info.floatWidth = none)
  unchunked _ := (by decide : ∀ f ∈ preset.fields, f.info.indefinite = false)
  untagged _ := rfl

theorem preset_unmixed : UnmixedStructs (soleEnv preset) := by
  intro _ f hf
  obtain rfl := List.mem_singleton.1 hf
  exact trivial

end VCodec.Cbor
