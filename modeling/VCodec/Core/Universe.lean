import VCodec.Core.LandsValue

/-!
# What a value may lose

Whether a value comes back is a question of several aspects, each of which can be asked for itself.
Of the types here only two are left: how a float is written, and what is put in the place of a
member that is left out.
-/

namespace VCodec

/-! ### Aspects -/

section

variable {env : Env} {F : Format} {A B : Aspect → Prop}

mutual

/-- A value comes back in two respects if it does in each. -/
theorem kept_or (f : FieldMeta) (t : Ty) (old v : Val) :
    Kept env F (fun a => A a ∨ B a) f t old v ↔
      Kept env F A f t old v ∧ Kept env F B f t old v := by
  cases t with
  | float =>
    cases v with
    | single x => exact or_imp
    | _ => exact and_self_iff.symm
  | double =>
    cases v with
    | real x => exact or_imp
    | _ => exact and_self_iff.symm
  | time d => cases v <;> exact or_imp
  | enum e =>
    cases v with
    | int i => exact or_imp
    | _ => exact and_self_iff.symm
  | string view =>
    cases v with
    | text x => exact or_imp
    | _ => exact and_self_iff.symm
  | byteRange r =>
    cases v with
    | bytes x => exact or_imp
    | _ => exact and_self_iff.symm
  | optional t =>
    cases v with
    | some v =>
      rw [Kept, Kept, Kept, kept_or f t (t.zero env) v, or_imp, and_and_and_comm]
    | _ => exact and_self_iff.symm
  | variant alts =>
    cases v with
    | variant i v =>
      rw [Kept, Kept, Kept]
      cases alts[i]? with
      | none => exact and_self_iff.symm
      | some alt =>
        cases htag : internallyTagged env alt.2 with
        | none =>
          simp only [htag]
          exact kept_or noField alt.2 _ v
        | some d =>
          cases v with
          | seq vs =>
            simp only [htag]
            rw [kept_fields_or, or_imp, or_imp]
            tauto
          | _ =>
            simp only [htag]
            exact kept_or noField alt.2 _ _
    | _ => exact and_self_iff.symm
  | map kind kt t =>
    cases v with
    | map es =>
      rw [Kept, Kept, Kept, kept_entries_or, or_imp, or_imp]
      tauto
    | _ => exact and_self_iff.symm
  | tuple ts =>
    cases v with
    | seq vs => exact kept_each_or f ts old.items vs
    | _ => exact and_self_iff.symm
  | array n t =>
    cases v with
    | seq vs => rw [Kept, Kept, Kept, kept_each_or, or_and_left]
    | _ => exact and_self_iff.symm
  | seq kind t =>
    cases v with
    | seq vs => rw [Kept, Kept, Kept, kept_each_or, or_and_left]
    | _ => exact and_self_iff.symm
  | struct st =>
    cases v with
    | seq vs =>
      rw [Kept, Kept, Kept]
      split
      · exact kept_inside_or _ _ _
      · exact kept_fields_or _ _ _
    | _ => exact and_self_iff.symm
  | _ => cases v <;> exact and_self_iff.symm
termination_by structural v

theorem kept_each_or (f : FieldMeta) (ts : List Ty) (olds vs : List Val) :
    KeptEach env F (fun a => A a ∨ B a) f ts olds vs ↔
      KeptEach env F A f ts olds vs ∧ KeptEach env F B f ts olds vs := by
  match ts, olds, vs with
  | t :: ts, old :: olds, v :: vs =>
    rw [KeptEach, KeptEach, KeptEach, kept_or f t old v, kept_each_or f ts olds vs,
      and_and_and_comm]
  | [], _, [] | [], _, _ :: _ | _ :: _, [], [] | _ :: _, [], _ :: _ | _ :: _, _ :: _, [] =>
    exact and_self_iff.symm
termination_by structural vs

theorem kept_entries_or (f : FieldMeta) (t : Ty) (es : List (Key × Val)) :
    KeptEntries env F (fun a => A a ∨ B a) f t es ↔
      KeptEntries env F A f t es ∧ KeptEntries env F B f t es := by
  match es with
  | [] => exact and_self_iff.symm
  | (k, v) :: es =>
    rw [KeptEntries, KeptEntries, KeptEntries, kept_or f t _ v, kept_entries_or f t es,
      and_and_and_comm]
termination_by structural es

theorem kept_inside_or (fs : List Field) (olds vs : List Val) :
    KeptInside env F (fun a => A a ∨ B a) fs olds vs ↔
      KeptInside env F A fs olds vs ∧ KeptInside env F B fs olds vs := by
  match fs, olds, vs with
  | f :: _, old :: _, v :: _ =>
    rw [KeptInside, KeptInside, KeptInside, kept_or f.info f.ty old v, or_imp, and_and_and_comm]
  | [], _, [] | [], _, _ :: _ | _ :: _, [], [] | _ :: _, [], _ :: _ | _ :: _, _ :: _, [] =>
    exact and_self_iff.symm
termination_by structural vs

theorem kept_fields_or (fs : List Field) (olds vs : List Val) :
    KeptFields env F (fun a => A a ∨ B a) fs olds vs ↔
      KeptFields env F A fs olds vs ∧ KeptFields env F B fs olds vs := by
  match fs, olds, vs with
  | f :: fs, old :: olds, v :: vs =>
    rw [KeptFields, KeptFields, KeptFields, kept_or f.info f.ty old v, kept_fields_or fs olds vs]
    split
    · rw [or_and_left, and_and_and_comm]
    · rw [or_imp, and_and_and_comm]
  | [], _, [] | [], _, _ :: _ | _ :: _, [], [] | _ :: _, [], _ :: _ | _ :: _, _ :: _, [] =>
    exact and_self_iff.symm
termination_by structural vs

end

end

/-! ### Types whose values are taken for no others -/

section

variable (env : Env)

mutual

/-- The type holds no sets, and the discriminators of its variants are the keys of nothing else. -/
def Unmixed (f : FieldMeta) : Ty → Prop
  | .optional t | .map _ _ t | .array _ t => Unmixed f t
  | .seq kind t => kind ≠ .set ∧ Unmixed f t
  | .tuple ts => UnmixedAll f ts
  | .variant alts => (∀ i, Discriminates env f alts i) ∧ UnmixedAlternatives alts
  | _ => True

def UnmixedAll (f : FieldMeta) : List Ty → Prop
  | [] => True
  | t :: ts => Unmixed f t ∧ UnmixedAll f ts

def UnmixedAlternatives : List (Bytes × Ty) → Prop
  | [] => True
  | (_, t) :: alts => Unmixed noField t ∧ UnmixedAlternatives alts

end

variable {env}

theorem unmixedAll_get {f : FieldMeta} {ts : List Ty} (h : UnmixedAll env f ts) {i : Nat} {t : Ty}
    (ht : ts[i]? = some t) :
    Unmixed env f t := by
  induction ts generalizing i with
  | nil => cases ht
  | cons u ts ih =>
    cases i with
    | zero =>
      cases ht
      exact h.1
    | succ i => exact ih h.2 ht

theorem unmixedAlternatives_get {alts : List (Bytes × Ty)}
    (h : UnmixedAlternatives env alts) {i : Nat} {alt : Bytes × Ty} (halt : alts[i]? = some alt) :
    Unmixed env noField alt.2 := by
  induction alts generalizing i with
  | nil => cases halt
  | cons a alts ih =>
    cases i with
    | zero =>
      cases halt
      exact h.1
    | succ i => exact ih h.2 halt

/-- The members of the structs have such types. -/
def UnmixedStructs (env : Env) : Prop :=
  ∀ id, ∀ f ∈ (env.structs id).fields, Unmixed env f.info f.ty

theorem Unmixed.part (hs : UnmixedStructs env) {f g : FieldMeta} {t u : Ty} {v w : Val}
    (h : Occurs env f t v g u w) (ht : Unmixed env f t) : Unmixed env g u := by
  induction h with
  | self => exact ht
  | some _ ih | entry _ _ ih | item _ _ ih => exact ih ht
  | alternative halt _ ih => exact ih (unmixedAlternatives_get ht.2 halt)
  | slot hslot _ _ ih => exact ih (unmixedAll_get ht hslot)
  | element _ _ ih => exact ih ht.2
  | member hfield _ _ _ ih => exact ih (hs _ _ (List.mem_of_getElem? hfield))

/-- No value of such a type is taken for another. -/
theorem Unmixed.clear {F : Format} (hs : UnmixedStructs env) {f : FieldMeta} {t : Ty}
    (ht : Unmixed env f t) (v : Val) :
    Clear env F f t v where
  discriminators hp := (Unmixed.part hs hp ht).1 _
  sets hp := absurd rfl (Unmixed.part hs hp ht).1

end

/-! ### Types that lose nothing else -/

section

variable (env : Env) (tr : Traits)

mutual

/-- The type owns what it holds, no present value of it is encoded as a null, and the entries of its
maps have unique keys; the alternatives of its variants have text keys. -/
def Portable : Ty → Prop
  | .bool | .char | .int _ | .float | .double | .struct _ => True
  | .string view => view = false
  | .byteRange r => r ≠ .span
  | .optional t => (∀ u, t ≠ .optional u) ∧ Portable t
  | .variant alts => PortableAlternatives alts
  | .map kind kt t => kind ≠ .pairs ∧ kt ≠ .text true ∧ Portable t
  | .tuple ts => PortableAll ts
  | .array _ t | .seq _ t => Portable t
  | .enum _ | .time _ => False

def PortableAll : List Ty → Prop
  | [] => True
  | t :: ts => Portable t ∧ PortableAll ts

def PortableAlternatives : List (Bytes × Ty) → Prop
  | [] => True
  | (_, t) :: alts =>
    ((∀ d, internallyTagged env t = some d → ∀ f ∈ d.fields, tr.integerKey d f = none) ∧ Portable t)
      ∧
      PortableAlternatives alts

end

/-- The members of the structs have such types, and are left out only if they are null. No
discriminator is empty. -/
structure PortableStructs : Prop where
  plain : ∀ id, (env.structs id).transparent = false
  types : ∀ id, ∀ f ∈ (env.structs id).fields, Portable env tr f.ty
  serialized : ∀ id, ∀ f ∈ (env.structs id).fields, f.skipSerializing = false
  deserialized : ∀ id, ∀ f ∈ (env.structs id).fields, f.skipDeserializing = false
  kept : ∀ id, ∀ f ∈ (env.structs id).fields, f.skipIfDefault = false
  nullable : ∀ id, ∀ f ∈ (env.structs id).fields, f.skipIfNull = true → f.default = none
  tagged : ∀ id, ∀ f ∈ (env.structs id).fields, f.info.tagKey ≠ some []

mutual

/-- All singles and doubles that the value holds have the properties. -/
def Val.Floats (p : Single → Prop) (q : Double → Prop) : Val → Prop
  | .single x => p x
  | .real x => q x
  | .some v | .variant _ v => Val.Floats p q v
  | .seq vs => Val.FloatsAll p q vs
  | .map es => Val.FloatsEntries p q es
  | _ => True

def Val.FloatsAll (p : Single → Prop) (q : Double → Prop) : List Val → Prop
  | [] => True
  | v :: vs => Val.Floats p q v ∧ Val.FloatsAll p q vs

def Val.FloatsEntries (p : Single → Prop) (q : Double → Prop) : List (Key × Val) → Prop
  | [] => True
  | (_, v) :: es => Val.Floats p q v ∧ Val.FloatsEntries p q es

end

variable {env tr}

theorem portableAlternatives_get {alts : List (Bytes × Ty)}
    (h : PortableAlternatives env tr alts) {i : Nat} {name : Bytes} {t : Ty}
    (halt : alts[i]? = some (name, t)) :
    (∀ d, internallyTagged env t = some d → ∀ f ∈ d.fields, tr.integerKey d f = none) ∧
      Portable env tr t := by
  induction alts generalizing i with
  | nil => cases halt
  | cons alt alts ih =>
    obtain ⟨name', t'⟩ := alt
    cases i with
    | zero =>
      cases halt
      exact h.1
    | succ i => exact ih h.2 halt

theorem not_null_of_portable
    {order : StructDef → List Nat} (hs : PortableStructs env tr) {f : FieldMeta} {t : Ty} {v : Val}
    (ht : Portable env tr t) (hpresent : ∀ u, t ≠ .optional u) :
    lower env tr order f t v ≠ some .null := by
  have hrange : ∀ {b : Bytes} {f' : FieldMeta} {ds : Option (List Doc)} {n : Option Nat} (p : Bool),
      (if p then some (Doc.bytes f' b) else ds.map (.array f' n)) ≠ some .null := by
    intro b f' ds n p
    cases p <;> cases ds <;> (intro h; cases h)
  have hstruct : ∀ {d : StructDef} {tagKey tagValue : Bytes} {ms : List DocMember},
    d.transparent = false →
      lowerStruct env tr order d tagKey tagValue ms ≠ some .null := by
    intro d tagKey tagValue ms hd h
    unfold lowerStruct at h
    rw [if_neg (by rw [hd]; exact Bool.false_ne_true)] at h
    obtain ⟨es, -, h⟩ := Option.bind_eq_some_iff.1 h
    split at h <;> cases h
  cases t with
  | optional t => exact absurd rfl (hpresent t)
  | enum e | time d => exact ht.elim
  | int k =>
    cases v with
    | int i =>
      rw [lower]
      split <;> (intro h; cases h)
    | _ =>
      intro h
      cases h
  | variant alts =>
    cases v with
    | variant i v =>
      rw [lower]
      cases alts[i]? with
      | none =>
        intro h
        cases h
      | some alt =>
        obtain ⟨name, t⟩ := alt
        cases htag : internallyTagged env t with
        | none =>
          simp only [htag]
          cases lower env tr order noField t v <;> (intro h; cases h)
        | some d =>
          simp only [htag]
          obtain ⟨id, -, rfl, hd⟩ := internallyTagged_eq_some htag
          cases v with
          | seq vs => exact hstruct hd
          | _ =>
            intro h
            cases h
    | _ =>
      intro h
      cases h
  | map kind kt t =>
    cases v with
    | map es =>
      rw [lower]
      cases (lowerEntries env tr order f kt t es).mapM id <;> (intro h; cases h)
    | _ =>
      intro h
      cases h
  | tuple ts =>
    cases v with
    | seq vs =>
      rw [lower]
      cases (lowerEach env tr order f ts vs).mapM id <;> (intro h; cases h)
    | _ =>
      intro h
      cases h
  | array n t | seq kind t =>
    cases v with
    | seq vs => exact hrange _
    | _ =>
      intro h
      cases h
  | struct st =>
    cases v with
    | seq vs => exact hstruct (hs.plain st)
    | _ =>
      intro h
      cases h
  | _ => cases v <;> (intro h; cases h)

variable {F : Format} {A : Aspect → Prop}

theorem textKeys_of_names {d : StructDef} (hkeys : ∀ f ∈ d.fields, F.traits.integerKey d f = none)
    (hname : ∀ k, F.shown (.name k) = .text k) (vs : List Val) : TextKeys env F d vs := by
  intro f v hmem _
  refine ⟨f.wireName, ?_⟩
  unfold keyOf
  rw [hkeys f (List.of_mem_zip hmem).1]
  exact hname _

section

variable {p : Single → Prop} {q : Double → Prop}

/-- What a format makes of the names of members and of floats, where the annotations are those of
`info`. -/
structure KeepsFloats (env : Env) (F : Format) (info : FieldMeta → Prop) (p : Single → Prop)
    (q : Double → Prop) : Prop where
  names : ∀ k, F.shown (.name k) = .text k
  none : info noField
  members : ∀ id, ∀ f ∈ (env.structs id).fields, info f.info
  discriminator : ∀ {f}, info f → f.tagKey ≠ some []
  single : ∀ {f x}, info f → p x → ∃ y, F.real f (doubleOfSingle x) = some y ∧ singleOfDouble y = x
  double : ∀ {f x}, info f → q x → F.real f x = some x

variable {info : FieldMeta → Prop}

mutual

/-- But for the members that are left out, the values of these types come back. -/
theorem kept_portable (hs : PortableStructs env F.traits) (hF : KeepsFloats env F info p q)
    (hA : ¬ A .omission) {f : FieldMeta} (hf : info f) (t : Ty) (old v : Val)
    (ht : Portable env F.traits t) (hv : v.Floats p q) :
    Kept env F A f t old v := by
  cases t with
  | float =>
    cases v with
    | single x => exact fun _ => hF.single hf hv
    | _ => exact trivial
  | double =>
    cases v with
    | real x => exact fun _ => hF.double hf hv
    | _ => exact trivial
  | time d | enum e => exact ht.elim
  | string view =>
    cases v with
    | text x => exact fun _ h => absurd (h.symm.trans ht) Bool.noConfusion
    | _ => exact trivial
  | byteRange r =>
    cases v with
    | bytes x => exact fun _ h => absurd h ht
    | _ => exact trivial
  | optional t =>
    cases v with
    | some v =>
      exact ⟨fun _ => not_null_of_portable hs ht.2 ht.1,
        kept_portable hs hF hA hf t (t.zero env) v ht.2 hv⟩
    | _ => exact trivial
  | variant alts =>
    cases v with
    | variant i v =>
      rw [Kept]
      cases halt : alts[i]? with
      | none => exact trivial
      | some alt =>
        obtain ⟨hkeys, halt⟩ := portableAlternatives_get ht halt
        cases htag : internallyTagged env alt.2 with
        | none =>
          simp only [htag]
          exact kept_portable hs hF hA hF.none alt.2 _ v halt hv
        | some d =>
          cases v with
          | seq vs =>
            simp only [htag]
            obtain ⟨id, -, rfl, -⟩ := internallyTagged_eq_some htag
            exact ⟨fun _ => hF.discriminator hf,
              fun _ => textKeys_of_names (hkeys _ htag) hF.names vs,
              kept_portable_fields hs hF hA (hF.members id) _ vs (hs.types id) hv⟩
          | _ =>
            simp only [htag]
            exact kept_portable hs hF hA hF.none alt.2 _ _ halt hv
    | _ => exact trivial
  | map kind kt t =>
    cases v with
    | map es =>
      exact ⟨fun _ h => absurd h ht.2.1, fun _ h => absurd h ht.1,
        kept_portable_entries hs hF hA hf t es ht.2.2 hv⟩
    | _ => exact trivial
  | tuple ts =>
    cases v with
    | seq vs => exact kept_portable_each hs hF hA hf ts old.items vs ht hv
    | _ => exact trivial
  | array n t =>
    cases v with
    | seq vs => exact .inr (kept_portable_same hs hF hA hf t vs.length old.items vs ht hv)
    | _ => exact trivial
  | seq kind t =>
    cases v with
    | seq vs => exact .inr (kept_portable_same hs hF hA hf t vs.length _ vs ht hv)
    | _ => exact trivial
  | struct st =>
    cases v with
    | seq vs =>
      rw [Kept, if_neg (by rw [hs.plain st]; exact Bool.false_ne_true)]
      exact kept_portable_fields hs hF hA (hF.members st) _ vs (hs.types st) hv
    | _ => exact trivial
  | _ => cases v <;> exact trivial
termination_by structural v

theorem kept_portable_each (hs : PortableStructs env F.traits) (hF : KeepsFloats env F info p q)
    (hA : ¬ A .omission) {f : FieldMeta} (hf : info f) (ts : List Ty) (olds vs : List Val)
    (hts : PortableAll env F.traits ts) (hvs : Val.FloatsAll p q vs) :
    KeptEach env F A f ts olds vs := by
  match ts, olds, vs with
  | t :: ts, old :: olds, v :: vs =>
    exact ⟨kept_portable hs hF hA hf t old v hts.1 hvs.1,
      kept_portable_each hs hF hA hf ts olds vs hts.2 hvs.2⟩
  | [], _, [] | [], _, _ :: _ | _ :: _, [], [] | _ :: _, [], _ :: _ | _ :: _, _ :: _, [] =>
    exact trivial
termination_by structural vs

theorem kept_portable_same (hs : PortableStructs env F.traits) (hF : KeepsFloats env F info p q)
    (hA : ¬ A .omission) {f : FieldMeta} (hf : info f) (t : Ty) (n : Nat) (olds vs : List Val)
    (ht : Portable env F.traits t) (hvs : Val.FloatsAll p q vs) :
    KeptEach env F A f (List.replicate n t) olds vs := by
  match n, olds, vs with
  | n + 1, old :: olds, v :: vs =>
    rw [List.replicate_succ]
    exact ⟨kept_portable hs hF hA hf t old v ht hvs.1,
      kept_portable_same hs hF hA hf t n olds vs ht hvs.2⟩
  | 0, _, [] | 0, _, _ :: _ | _ + 1, [], [] | _ + 1, [], _ :: _ | _ + 1, _ :: _, [] => exact trivial
termination_by structural vs

theorem kept_portable_entries
    (hs : PortableStructs env F.traits) (hF : KeepsFloats env F info p q)
    (hA : ¬ A .omission) {f : FieldMeta} (hf : info f) (t : Ty) (es : List (Key × Val))
    (ht : Portable env F.traits t) (hes : Val.FloatsEntries p q es) :
    KeptEntries env F A f t es := by
  match es with
  | [] => exact trivial
  | (k, v) :: es =>
    exact ⟨kept_portable hs hF hA hf t _ v ht hes.1,
      kept_portable_entries hs hF hA hf t es ht hes.2⟩
termination_by structural es

theorem kept_portable_fields (hs : PortableStructs env F.traits) (hF : KeepsFloats env F info p q)
    (hA : ¬ A .omission) {fs : List Field} (hinfo : ∀ f ∈ fs, info f.info) (olds vs : List Val)
    (hfs : ∀ f ∈ fs, Portable env F.traits f.ty) (hvs : Val.FloatsAll p q vs) :
    KeptFields env F A fs olds vs := by
  match fs, olds, vs with
  | f :: fs, old :: olds, v :: vs =>
    obtain ⟨hf, hfs⟩ := List.forall_mem_cons.1 hfs
    obtain ⟨hinfo₀, hinfo⟩ := List.forall_mem_cons.1 hinfo
    refine ⟨?_, kept_portable_fields hs hF hA hinfo olds vs hfs hvs.2⟩
    split
    · exact .inr (kept_portable hs hF hA hinfo₀ f.ty old v hf hvs.1)
    · exact fun h => absurd h hA
  | [], _, [] | [], _, _ :: _ | _ :: _, [], [] | _ :: _, [], _ :: _ | _ :: _, _ :: _, [] =>
    exact trivial
termination_by structural vs

end

/-- What is put in the place of the members that are left out decides. -/
theorem keptMember_portable
    (hs : PortableStructs env F.traits) (hF : KeepsFloats env F info p q) {f : FieldMeta}
    (hf : info f) {t : Ty} (old : Val) {v : Val} (ht : Portable env F.traits t)
    (hv : v.Floats p q) :
    KeptMember env F everything f t old v ↔ KeptMember env F (· = .omission) f t old v := by
  have hsplit : everything = fun a => a = Aspect.omission ∨ a ≠ .omission := by
    funext a
    exact propext (iff_of_true trivial (Decidable.em _))
  have hkept : Kept env F (· ≠ .omission) f t old v :=
    kept_portable hs hF (fun h => h rfl) hf t old v ht hv
  unfold KeptMember
  rw [hsplit, kept_or, and_iff_left hkept]

end

end

end VCodec
