import VCodec.Core.Build
import VCodec.Core.Document

/-!
# Values that come back

What the decoder makes of a document that the encoder has made of a value, said on values: which
ones come back as they were. A format adds what it makes of keys, floats and the order of entries,
and which texts alias the input. What is left out of an object is what the decoder puts there again,
which may be the initializer of an enclosing object, so the object that is decoded into counts.
-/

namespace VCodec

/-! ### Equal values -/

section

variable (env : Env)

mutual

/-- The second value is the first one, up to the order of the entries of a map. A range of pairs has
an order. -/
def Like : Ty → Val → Val → Prop
  | .optional t, .some v, w => ∃ w', w = .some w' ∧ Like t v w'
  | .variant alts, .variant i v, w =>
    ∃ alt w', alts[i]? = some alt ∧ w = .variant i w' ∧ Like alt.2 v w'
  | .map kind _ t, .map es, w => ∃ es₁ es', LikeEntries t es es₁ ∧ w = .map es' ∧
    if kind = .pairs then es' = es₁ else es₁.Perm es'
  | .tuple ts, .seq vs, w => ∃ ws, w = .seq ws ∧ LikeEach ts vs ws
  | .array _ t, .seq vs, w => ∃ ws, w = .seq ws ∧ LikeEach (List.replicate vs.length t) vs ws
  | .seq _ t, .seq vs, w => ∃ ws, w = .seq ws ∧ LikeEach (List.replicate vs.length t) vs ws
  | .struct id, .seq vs, w =>
    ∃ ws, w = .seq ws ∧ LikeEach ((env.structs id).fields.map Field.ty) vs ws
  | _, v, w => w = v

def LikeEach : List Ty → List Val → List Val → Prop
  | t :: ts, v :: vs, ws => ∃ w ws', ws = w :: ws' ∧ Like t v w ∧ LikeEach ts vs ws'
  | _, [], ws => ws = []
  | [], _ :: _, _ => False

def LikeEntries (t : Ty) : List (Key × Val) → List (Key × Val) → Prop
  | (k, v) :: es, es' => ∃ w es₁, es' = (k, w) :: es₁ ∧ Like t v w ∧ LikeEntries t es es₁
  | [], es' => es' = []

end

end

/-! ### Formats -/

/-- What a format's reader makes of what its writer has written. -/
structure Format where
  traits : Traits
  /-- `member_order`. -/
  order : StructDef → List Nat
  /-- The entries of a map, in the order in which they are written. -/
  arrange : List (DocKey × Doc) → List (DocKey × Doc)
  /-- A key, as it is read. -/
  shown : DocKey → EntryKey
  /-- The value of a float as it is written. -/
  real : FieldMeta → Double → Option Double
  /-- Whether what is read aliases the input. -/
  aliasesText : FieldMeta → Bytes → Bool
  aliasesBytes : FieldMeta → Bytes → Bool
  aliasesKey : DocKey → Bool

/-- What a value may lose on the way. -/
inductive Aspect
  | reals | enums | views | nulls | tags | discriminators | keys | omission | order
  deriving DecidableEq, Repr

/-- The member is written. -/
def Field.written (env : Env) (f : Field) (v : Val) : Bool := ¬ f.skipSerializing ∧ ¬ f.omits env v

/-- What stands in the place of a member that is not read, if `old` did. -/
def Field.restored (f : Field) (old : Val) : Val :=
  if f.skipDeserializing then old
  else
    match f.default with
    | some v => f.defaulted v
    | none => old

section

variable (env : Env) (F : Format)

/-- The document of the value is a null. -/
def Nullish (f : FieldMeta) (t : Ty) (v : Val) : Prop :=
  lower env F.traits F.order f t v = some .null

/-- No tag is expected before a present value. -/
def Untagged (f : FieldMeta) : Ty → Val → Prop
  | .optional t, .some v => Untagged f t v
  | .optional _, _ => True
  | t, _ => F.traits.expectedTags env f t = []

/-- A present value is written in bulk. -/
def Bulk (f : FieldMeta) : Ty → Val → Prop
  | .optional t, .some v => Bulk f t v
  | .optional _, _ => False
  | t, _ => F.traits.bulkRange f t = true

/-- The number or the text of an enumerator leads back to its value. -/
def KeptEnum (f : FieldMeta) (e : EnumDef) (i : Int) : Prop :=
  if F.traits.enumAsInteger f e then ∃ en ∈ e.enumerators, en.value = i
  else ∀ en, e.enumerators.find? (fun en => en.value = i) = some en →
    (e.find en.name).map Enumerator.value = some i

/-- What is written for a time point is that time point. -/
def KeptTime (f : FieldMeta) (d : Duration) (v : Val) : Prop :=
  match lowerTime env f d v with
  | .text _ t => ∃ i, env.parseTime t = some i ∧ env.timeOfSeconds d i = v
  | .sint _ i => env.timeOfSeconds d i = v
  | .real f x => ∃ y, F.real f x = some y ∧ env.timeOfReal d y = v
  | _ => True

/-- The keys of the members that are written are text. -/
def TextKeys (d : StructDef) (vs : List Val) : Prop :=
  ∀ f v, (f, v) ∈ d.fields.zip vs → f.written env v = true →
    ∃ k, F.shown (keyOf F.traits d f) = .text k

/-- The entries of a map are written in the order that they have. -/
def InOrder (f : FieldMeta) (kt : KeyTy) (t : Ty) (es : List (Key × Val)) : Prop :=
  ∀ ds, (lowerEntries env F.traits F.order f kt t es).mapM id = some ds → F.arrange ds = ds

variable (A : Aspect → Prop)

mutual

/-- The value comes back from its document, as far as the given aspects go, if it is decoded into
`old`. -/
def Kept (f : FieldMeta) : Ty → Val → Val → Prop
  | .float, _, .single x =>
    A .reals → ∃ y, F.real f (doubleOfSingle x) = some y ∧ singleOfDouble y = x
  | .double, _, .real x => A .reals → F.real f x = some x
  | .time d, _, v => A .reals → KeptTime env F f d v
  | .enum e, _, .int i => A .enums → KeptEnum F f e i
  | .string view, _, .text t => A .views → view = true → F.aliasesText f t = true
  | .optional t, _, .some v => (A .nulls → ¬ Nullish env F f t v) ∧ Kept f t (t.zero env) v
  | .variant alts, _, .variant i v =>
    match alts[i]? with
    | none => True
    | some (_, t) =>
      match internallyTagged env t, v with
      | some d, .seq vs =>
        -- an empty discriminator is not written
        (A .discriminators → f.tagKey ≠ some []) ∧ (A .keys → TextKeys env F d vs) ∧
          KeptFields d.fields (d.fields.map Field.initial) vs
      | _, v => Kept noField t (t.zero env) v
  | .byteRange r, _, .bytes b => A .views → r = .span → F.aliasesBytes f b = true
  | .map kind kt t, _, .map es =>
    (A .views → kt = .text true → ∀ k v, (.text k, v) ∈ es → F.aliasesKey (.text k) = true) ∧
      (A .order → kind = .pairs → InOrder env F f kt t es) ∧ KeptEntries f t es
  | .tuple ts, old, .seq vs => KeptEach f ts old.items vs
  | .array n t, old, .seq vs =>
    F.traits.isBytes f (.array n t) = true ∨ KeptEach f (List.replicate vs.length t) old.items vs
  | .seq kind t, _, .seq vs =>
    F.traits.isBytes f (.seq kind t) = true ∨
      KeptEach f (List.replicate vs.length t) (List.replicate vs.length (t.zero env)) vs
  | .struct id, old, .seq vs =>
    if (env.structs id).transparent then KeptInside (env.structs id).fields old.items vs
    else KeptFields (env.structs id).fields old.items vs
  | _, _, _ => True
termination_by structural _ _ v => v

def KeptEach (f : FieldMeta) : List Ty → List Val → List Val → Prop
  | t :: ts, old :: olds, v :: vs => Kept f t old v ∧ KeptEach f ts olds vs
  | _, _, _ => True
termination_by structural _ _ vs => vs

def KeptEntries (f : FieldMeta) (t : Ty) : List (Key × Val) → Prop
  | (_, v) :: es => Kept f t (t.zero env) v ∧ KeptEntries f t es
  | [] => True
termination_by structural es => es

/-- The member of a transparent struct: it is read with its tags. -/
def KeptInside : List Field → List Val → List Val → Prop
  | f :: _, old :: _, v :: _ => (A .tags → Untagged env F f.info f.ty v) ∧ Kept f.info f.ty old v
  | _, _, _ => True
termination_by structural _ _ vs => vs

/-- The members of an object: what is written is read, and what is not is restored. -/
def KeptFields : List Field → List Val → List Val → Prop
  | f :: fs, old :: olds, v :: vs =>
    (if f.written env v ∧ ¬ f.skipDeserializing then Bulk F f.info f.ty v ∨ Kept f.info f.ty old v
      else A .omission → (f.skipDeserializing = true ∨ f.required = false) ∧
        Like env f.ty v (f.restored old)) ∧
      KeptFields fs olds vs
  | _, _, _ => True
termination_by structural _ _ vs => vs

end

/-- A member comes back: its value, or the bulk form of that. -/
def KeptMember (f : FieldMeta) (t : Ty) (old v : Val) : Prop :=
  Bulk F f t v ∨ Kept env F A f t old v

end

/-- In all respects. -/
def everything : Aspect → Prop := fun _ => True

/-! ### Values of a type -/

def IntTy.Holds (k : IntTy) (i : Int) : Prop := k.min ≤ i ∧ i ≤ k.max

instance (k : IntTy) (i : Int) : Decidable (k.Holds i) := inferInstanceAs (Decidable (_ ∧ _))

def KeyTy.Holds : KeyTy → Key → Prop
  | .text _, .text _ => True
  | .int k, .int i => k.Holds i
  | _, _ => False

/-- A set is what the insertion of its elements one by one makes. -/
def SetOf (env : Env) (t : Ty) (vs : List Val) : Prop :=
  ∀ ws, LikeEach env (List.replicate vs.length t) vs ws →
    LikeEach env (List.replicate vs.length t) vs (ws.foldl (fun us w => env.insert t w us) [])

section

variable (env : Env)

mutual

/-- A value of the type. The annotations of a variant name its discriminator. -/
def Proper (f : FieldMeta) : Ty → Val → Prop
  | .bool, .bool _ | .char, .char _ | .float, .single _ | .double, .real _ | .string _, .text _ =>
    True
  | .int k, .int i => k.Holds i
  | .enum e, .int i => e.underlying.Holds i
  | .time d, .int _ => d.integral = true
  | .time d, .real _ => d.integral = false
  | .optional t, .some v => Proper f t v
  | .optional _, .null => True
  | .variant alts, .variant i v =>
    f.tagKey.isSome = true ∧ ∃ alt, alts[i]? = some alt ∧ Proper noField alt.2 v
  | .byteRange r, .bytes b => ∀ n, r = .array n → b.length = n
  | .map kind kt t, .map es =>
    (kind ≠ .pairs → (es.map Prod.fst).Nodup) ∧ (∀ e ∈ es, kt.Holds e.1) ∧ ProperEntries f t es
  | .tuple ts, .seq vs => ProperEach f ts vs
  | .array n t, .seq vs => ProperEach f (List.replicate n t) vs
  | .seq kind t, .seq vs =>
    ProperEach f (List.replicate vs.length t) vs ∧ (kind = .set → SetOf env t vs)
  | .struct id, .seq vs => ProperFields (env.structs id).fields vs
  | _, _ => False

def ProperEach (f : FieldMeta) : List Ty → List Val → Prop
  | t :: ts, v :: vs => Proper f t v ∧ ProperEach f ts vs
  | [], [] => True
  | _, _ => False

def ProperEntries (f : FieldMeta) (t : Ty) : List (Key × Val) → Prop
  | (_, v) :: es => Proper f t v ∧ ProperEntries f t es
  | [] => True

def ProperFields : List Field → List Val → Prop
  | f :: fs, v :: vs => Proper f.info f.ty v ∧ ProperFields fs vs
  | [], [] => True
  | _, _ => False

end

/-! ### Values that are not taken for others -/

/-- A part of the value that is written and read, with its annotations and its type. -/
inductive Occurs : FieldMeta → Ty → Val → FieldMeta → Ty → Val → Prop
  | self {f t v} : Occurs f t v f t v
  | some {f t v g u w} : Occurs f t v g u w → Occurs f (.optional t) (.some v) g u w
  | alternative {f} {alts : List (Bytes × Ty)} {i : Nat} {v alt g u w} : alts[i]? = some alt →
      Occurs noField alt.2 v g u w → Occurs f (.variant alts) (.variant i v) g u w
  | entry {f kind kt t} {es : List (Key × Val)} {e g u w} : e ∈ es → Occurs f t e.2 g u w →
      Occurs f (.map kind kt t) (.map es) g u w
  | slot {f} {ts : List Ty} {vs : List Val} {i : Nat} {t v g u w} : ts[i]? = some t →
      vs[i]? = some v →
      Occurs f t v g u w → Occurs f (.tuple ts) (.seq vs) g u w
  | item {f n t} {vs : List Val} {v g u w} : v ∈ vs → Occurs f t v g u w →
      Occurs f (.array n t) (.seq vs) g u w
  | element {f kind t} {vs : List Val} {v g u w} : v ∈ vs → Occurs f t v g u w →
      Occurs f (.seq kind t) (.seq vs) g u w
  | member {f id} {vs : List Val} {i : Nat} {h v g u w} : (env.structs id).fields[i]? = some h →
      vs[i]? = some v →
      (env.structs id).transparent = true ∨ h.written env v = true ∧ h.skipDeserializing = false →
      Occurs h.info h.ty v g u w → Occurs f (.struct id) (.seq vs) g u w

/-- The discriminator names one alternative alone, and is the key neither of a member nor of the
payload. -/
def Discriminates (f : FieldMeta) (alts : List (Bytes × Ty)) (i : Nat) : Prop :=
  ∀ alt tagKey, alts[i]? = some alt → f.tagKey = some tagKey →
    findAlternative alt.1 alts 0 = some (i, alt.2) ∧
      (∀ d, internallyTagged env alt.2 = some d → d.find tagKey = none) ∧
      (internallyTagged env alt.2 = none → tagKey ≠ variantValueKey)

/-- No discriminator in the value is taken for something else, and the elements of its sets come
back. -/
structure Clear (F : Format) (f : FieldMeta) (t : Ty) (v : Val) : Prop where
  discriminators : ∀ {g alts i w}, Occurs env f t v g (.variant alts) (.variant i w) →
    Discriminates env g alts i
  sets : ∀ {g u vs}, Occurs env f t v g (.seq .set u) (.seq vs) →
    ∀ w ∈ vs, Kept env F everything g u (u.zero env) w

end

/-! ### Programs -/

section

variable (env : Env) (F : Format)

/-- What the audit of the schemas has found: a name or an integer key, a `std::int64_t`, leads to
one member, and a transparent struct has exactly one. -/
structure Vetted : Prop where
  names : ∀ id, ((env.structs id).fields.flatMap fun f => f.wireName :: f.aliases).Nodup
  keys : ∀ id, ((env.structs id).fields.filterMap (F.traits.integerKey (env.structs id))).Nodup
  integers : ∀ id, ∀ f ∈ (env.structs id).fields, ∀ k,
    F.traits.integerKey (env.structs id) f = some k → k ≤ int64Max
  transparent : ∀ id, (env.structs id).transparent = true → (env.structs id).fields.length = 1

end

/-! ### Parts of a value -/

namespace Val

theorem sizeOf_some (v : Val) : sizeOf v < sizeOf (Val.some v) := by simp

theorem sizeOf_variant (i : Nat) (v : Val) : sizeOf v < sizeOf (Val.variant i v) := by
  simp only [Val.variant.sizeOf_spec]
  omega

theorem sizeOf_seq {v : Val} {vs : List Val} (h : v ∈ vs) : sizeOf v < sizeOf (Val.seq vs) := by
  have hlt := List.sizeOf_lt_of_mem h
  simp only [Val.seq.sizeOf_spec]
  omega

theorem sizeOf_map {k : Key} {v : Val} {es : List (Key × Val)} (h : (k, v) ∈ es) :
    sizeOf v < sizeOf (Val.map es) := by
  have hlt := List.sizeOf_lt_of_mem h
  simp only [Val.map.sizeOf_spec, Prod.mk.sizeOf_spec] at hlt ⊢
  omega

/-- Induction over a value and all that it holds. -/
theorem parts {P : Val → Prop} (h : ∀ v, (∀ w, sizeOf w < sizeOf v → P w) → P v) (v : Val) : P v :=
  h v fun w _ => parts h w
termination_by sizeOf v

end Val

section

variable {env : Env} {F : Format}

theorem Clear.part {f g : FieldMeta} {t u : Ty} {v w : Val} (h : Clear env F f t v)
    (hpart : ∀ {g' u' w'}, Occurs env g u w g' u' w' → Occurs env f t v g' u' w') :
    Clear env F g u w :=
  ⟨fun hp => h.discriminators (hpart hp), fun hp => h.sets (hpart hp)⟩

theorem likeEach_iff {ts : List Ty} {vs ws : List Val} (hlen : vs.length = ts.length) :
    LikeEach env ts vs ws ↔ ws.length = vs.length ∧
      ∀ (i : Nat) t v w, ts[i]? = some t → vs[i]? = some v → ws[i]? = some w → Like env t v w := by
  induction vs generalizing ts ws with
  | nil =>
    have hnil : LikeEach env ts [] ws ↔ ws = [] := by cases ts <;> exact Iff.rfl
    rw [hnil, List.length_nil, List.length_eq_zero_iff]
    exact ⟨fun h => ⟨h, fun _ _ _ _ _ hv => by simp at hv⟩, fun h => h.1⟩
  | cons v vs ih =>
    cases ts with
    | nil => cases hlen
    | cons t ts =>
      have hlen' : vs.length = ts.length := Nat.succ.inj hlen
      rw [LikeEach]
      constructor
      · rintro ⟨w, ws, rfl, hw, hws⟩
        obtain ⟨hlength, hall⟩ := (ih hlen').1 hws
        refine ⟨congrArg (· + 1) hlength, fun i t' v' w' ht hv hw' => ?_⟩
        cases i with
        | zero =>
          cases ht
          cases hv
          cases hw'
          exact hw
        | succ i => exact hall i t' v' w' ht hv hw'
      · rintro ⟨hlength, hall⟩
        cases ws with
        | nil => cases hlength
        | cons w ws =>
          refine ⟨w, ws, rfl, hall 0 t v w rfl rfl rfl,
            (ih hlen').2 ⟨Nat.succ.inj hlength, fun i t' v' w' ht hv hw' => ?_⟩⟩
          exact hall (i + 1) t' v' w' ht hv hw'

theorem properEach_iff {f : FieldMeta} {ts : List Ty} {vs : List Val} :
    ProperEach env f ts vs ↔ vs.length = ts.length ∧
      ∀ (i : Nat) t v, ts[i]? = some t → vs[i]? = some v → Proper env f t v := by
  induction vs generalizing ts with
  | nil =>
    cases ts with
    | nil => exact iff_of_true trivial ⟨rfl, fun _ _ _ ht => by simp at ht⟩
    | cons t ts => exact iff_of_false id fun h => (nomatch h.1)
  | cons v vs ih =>
    cases ts with
    | nil => exact iff_of_false id fun h => (nomatch h.1)
    | cons t ts =>
      rw [ProperEach, ih]
      constructor
      · rintro ⟨hv, hlength, hall⟩
        refine ⟨congrArg (· + 1) hlength, fun i t' v' ht hv' => ?_⟩
        cases i with
        | zero =>
          cases ht
          cases hv'
          exact hv
        | succ i => exact hall i t' v' ht hv'
      · rintro ⟨hlength, hall⟩
        exact ⟨hall 0 t v rfl rfl, Nat.succ.inj hlength, fun i => hall (i + 1)⟩

theorem properFields_iff {fs : List Field} {vs : List Val} :
    ProperFields env fs vs ↔ vs.length = fs.length ∧
      ∀ (i : Nat) f v, fs[i]? = some f → vs[i]? = some v → Proper env f.info f.ty v := by
  induction vs generalizing fs with
  | nil =>
    cases fs with
    | nil => exact iff_of_true trivial ⟨rfl, fun _ _ _ ht => by simp at ht⟩
    | cons f fs => exact iff_of_false id fun h => (nomatch h.1)
  | cons v vs ih =>
    cases fs with
    | nil => exact iff_of_false id fun h => (nomatch h.1)
    | cons f fs =>
      rw [ProperFields, ih]
      constructor
      · rintro ⟨hv, hlength, hall⟩
        refine ⟨congrArg (· + 1) hlength, fun i t' v' ht hv' => ?_⟩
        cases i with
        | zero =>
          cases ht
          cases hv'
          exact hv
        | succ i => exact hall i t' v' ht hv'
      · rintro ⟨hlength, hall⟩
        exact ⟨hall 0 f v rfl rfl, Nat.succ.inj hlength, fun i => hall (i + 1)⟩

theorem properEntries_iff {f : FieldMeta} {t : Ty} {es : List (Key × Val)} :
    ProperEntries env f t es ↔ ∀ e ∈ es, Proper env f t e.2 := by
  induction es with
  | nil => exact iff_of_true trivial fun _ h => nomatch h
  | cons e es ih => rw [ProperEntries, ih, List.forall_mem_cons]

theorem likeEntries_iff {t : Ty} {es es' : List (Key × Val)} :
    LikeEntries env t es es' ↔
      List.Forall₂ (fun e e' => e'.1 = e.1 ∧ Like env t e.2 e'.2) es es' := by
  induction es generalizing es' with
  | nil => rw [LikeEntries, List.forall₂_nil_left_iff]
  | cons e es ih =>
    obtain ⟨k, v⟩ := e
    rw [LikeEntries]
    constructor
    · rintro ⟨w, es₁, rfl, hw, hes⟩
      exact .cons ⟨rfl, hw⟩ (ih.1 hes)
    · rintro (_ | ⟨⟨hk, hw⟩, hes⟩)
      rename_i e' es₁
      obtain ⟨k', w⟩ := e'
      obtain rfl : k' = k := hk
      exact ⟨w, es₁, rfl, hw, ih.2 hes⟩

theorem likeEach_refl {ts : List Ty} {vs : List Val} (hlen : vs.length = ts.length)
    (h : ∀ (i : Nat) t v, ts[i]? = some t → vs[i]? = some v → Like env t v v) :
    LikeEach env ts vs vs := by
  refine (likeEach_iff hlen).2 ⟨rfl, fun i t v w ht hv hw => ?_⟩
  rw [hv] at hw
  cases hw
  exact h i t v ht hv

/-- A value is like itself. -/
theorem like_refl {f : FieldMeta} {t : Ty} {v : Val} (h : Proper env f t v) : Like env t v v := by
  induction v using Val.parts generalizing f t with
  | h v ih =>
    have hall : ∀ {f : FieldMeta} {ts : List Ty} {vs : List Val}, (∀ w ∈ vs, sizeOf w < sizeOf v) →
        ProperEach env f ts vs → LikeEach env ts vs vs := by
      intro f ts vs hsize hproper
      obtain ⟨hlen, hparts⟩ := properEach_iff.1 hproper
      exact likeEach_refl hlen fun i t w ht hw =>
        ih w (hsize w (List.mem_of_getElem? hw)) (hparts i t w ht hw)
    have hfields : ∀ {fs : List Field} {vs : List Val}, (∀ w ∈ vs, sizeOf w < sizeOf v) →
        ProperFields env fs vs → LikeEach env (fs.map Field.ty) vs vs := by
      intro fs vs hsize hproper
      obtain ⟨hlen, hparts⟩ := properFields_iff.1 hproper
      refine likeEach_refl (hlen.trans (List.length_map _).symm) fun i t w ht hw => ?_
      rw [List.getElem?_map, Option.map_eq_some_iff] at ht
      obtain ⟨f, hf, rfl⟩ := ht
      exact ih w (hsize w (List.mem_of_getElem? hw)) (hparts i f w hf hw)
    cases t with
    | optional t =>
      cases v with
      | some v => exact ⟨v, rfl, ih v (Val.sizeOf_some v) h⟩
      | null => exact rfl
      | _ => exact h.elim
    | variant alts =>
      cases v with
      | variant i v =>
        obtain ⟨-, alt, halt, hv⟩ := h
        exact ⟨alt, v, halt, rfl, ih v (Val.sizeOf_variant i v) hv⟩
      | _ => exact h.elim
    | map kind kt t =>
      cases v with
      | map es =>
        rw [Proper] at h
        refine ⟨es, es, ?_, rfl, ?_⟩
        · rw [likeEntries_iff, List.forall₂_same]
          exact fun e he => ⟨rfl, ih e.2 (Val.sizeOf_map he) (properEntries_iff.1 h.2.2 e he)⟩
        · split
          · rfl
          · exact .refl es
      | _ => exact h.elim
    | tuple ts =>
      cases v with
      | seq vs => exact ⟨vs, rfl, hall (fun w => Val.sizeOf_seq) h⟩
      | _ => exact h.elim
    | array n t =>
      cases v with
      | seq vs =>
        rw [Proper] at h
        obtain rfl : vs.length = n := by
          have hlen := (properEach_iff.1 h).1
          rwa [List.length_replicate] at hlen
        exact ⟨vs, rfl, hall (fun w => Val.sizeOf_seq) h⟩
      | _ => exact h.elim
    | seq kind t =>
      cases v with
      | seq vs => exact ⟨vs, rfl, hall (fun w => Val.sizeOf_seq) h.1⟩
      | _ => exact h.elim
    | struct id =>
      cases v with
      | seq vs => exact ⟨vs, rfl, hfields (fun w => Val.sizeOf_seq) h⟩
      | _ => exact h.elim
    | _ => cases v <;> exact rfl

theorem likeEach_replicate {t : Ty} {vs ws : List Val} :
    LikeEach env (List.replicate vs.length t) vs ws ↔ List.Forall₂ (Like env t) vs ws := by
  induction vs generalizing ws with
  | nil => exact List.forall₂_nil_left_iff.symm
  | cons v vs ih =>
    rw [List.length_cons, List.replicate_succ, LikeEach]
    constructor
    · rintro ⟨w, ws, rfl, hw, hws⟩
      exact .cons hw (ih.1 hws)
    · rintro (_ | ⟨hw, hws⟩)
      exact ⟨_, _, rfl, hw, ih.2 hws⟩

variable {A : Aspect → Prop}

theorem keptEach_replicate {f : FieldMeta} {t : Ty} {old : Val} {vs : List Val} :
    KeptEach env F A f (List.replicate vs.length t) (List.replicate vs.length old) vs ↔
      ∀ v ∈ vs, Kept env F A f t old v := by
  induction vs with
  | nil => exact iff_of_true trivial fun _ h => nomatch h
  | cons v vs ih =>
    rw [List.length_cons, List.replicate_succ, List.replicate_succ, KeptEach, ih,
      List.forall_mem_cons]

theorem keptEach_iff {f : FieldMeta} {ts : List Ty} {olds vs : List Val}
    (hlen : olds.length = vs.length) :
    KeptEach env F A f ts olds vs ↔ ∀ (i : Nat) t v, ts[i]? = some t → vs[i]? = some v →
      Kept env F A f t (olds.getD i .null) v := by
  induction vs generalizing ts olds with
  | nil =>
    have htrue : KeptEach env F A f ts olds [] := by cases ts <;> cases olds <;> trivial
    exact iff_of_true htrue fun _ _ _ _ hv => by simp at hv
  | cons v vs ih =>
    cases olds with
    | nil => cases hlen
    | cons old olds =>
      cases ts with
      | nil => exact iff_of_true trivial fun _ _ _ ht => by simp at ht
      | cons t ts =>
        rw [KeptEach, ih (Nat.succ.inj hlen)]
        constructor
        · rintro ⟨hv, hall⟩ i t' v' ht hv'
          cases i with
          | zero =>
            cases ht
            cases hv'
            exact hv
          | succ i => exact hall i t' v' ht hv'
        · intro hall
          exact ⟨hall 0 t v rfl rfl, fun i => hall (i + 1)⟩

theorem keptEntries_iff {f : FieldMeta} {t : Ty} {es : List (Key × Val)} :
    KeptEntries env F A f t es ↔ ∀ e ∈ es, Kept env F A f t (t.zero env) e.2 := by
  induction es with
  | nil => exact iff_of_true trivial fun _ h => nomatch h
  | cons e es ih => rw [KeptEntries, ih, List.forall_mem_cons]

/-- What comes back of one member. -/
def KeptAt (env : Env) (F : Format) (A : Aspect → Prop) (f : Field) (old v : Val) : Prop :=
  if f.written env v ∧ ¬ f.skipDeserializing then KeptMember env F A f.info f.ty old v
  else A .omission → (f.skipDeserializing = true ∨ f.required = false) ∧
    Like env f.ty v (f.restored old)

theorem keptFields_iff {fs : List Field} {olds vs : List Val} (hlen : olds.length = vs.length) :
    KeptFields env F A fs olds vs ↔ ∀ (i : Nat) f v, fs[i]? = some f → vs[i]? = some v →
      KeptAt env F A f (olds.getD i .null) v := by
  induction vs generalizing fs olds with
  | nil =>
    have htrue : KeptFields env F A fs olds [] := by cases fs <;> cases olds <;> trivial
    exact iff_of_true htrue fun _ _ _ _ hv => by simp at hv
  | cons v vs ih =>
    cases olds with
    | nil => cases hlen
    | cons old olds =>
      cases fs with
      | nil => exact iff_of_true trivial fun _ _ _ ht => by simp at ht
      | cons f fs =>
        rw [KeptFields, ih (Nat.succ.inj hlen)]
        constructor
        · rintro ⟨hv, hall⟩ i t' v' ht hv'
          cases i with
          | zero =>
            cases ht
            cases hv'
            exact hv
          | succ i => exact hall i t' v' ht hv'
        · intro hall
          exact ⟨hall 0 f v rfl rfl, fun i => hall (i + 1)⟩

end

end VCodec
