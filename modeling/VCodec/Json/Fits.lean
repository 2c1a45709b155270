import VCodec.Core.Universe
import VCodec.Cbor.Fits
import VCodec.Json.Layout

/-!
# What the reader takes of what was written

The document of a value has its integers in their ranges and no key that is an integer, and its
doubles are those of the value. With the limits of the writer, the reader takes it.
-/

namespace VCodec

/-! ### Every part of a document -/

section

variable {p p' r : Nat → Doc → Prop} {q q' u : DocKey → Prop}

theorem Doc.everyAll_iff {n : Nat} {ds : List Doc} :
    Doc.EveryAll p q n ds ↔ ∀ d ∈ ds, d.Every p q n := by
  induction ds with
  | nil => exact iff_of_true trivial (List.forall_mem_nil _)
  | cons d ds ih => rw [Doc.EveryAll, ih, List.forall_mem_cons]

theorem Doc.everyEntry_iff {n : Nat} {es : List (DocKey × Doc)} :
    Doc.EveryEntry p q n es ↔ ∀ e ∈ es, q e.1 ∧ e.2.Every p q n := by
  induction es with
  | nil => exact iff_of_true trivial (List.forall_mem_nil _)
  | cons e es ih => rw [Doc.EveryEntry, ih, List.forall_mem_cons, and_assoc]

mutual

/-- What two properties entail of each part they entail of the whole. -/
theorem Doc.Every.both (hp : ∀ n d, p n d → p' n d → r n d)
    (hq : ∀ k, q k → q' k → u k) {n : Nat} {d : Doc} (h : d.Every p q n) (h' : d.Every p' q' n) :
    d.Every r u n := by
  cases d with
  | tag t d => exact ⟨hp _ _ h.1 h'.1, h.2.both hp hq h'.2⟩
  | array f c ds => exact ⟨hp _ _ h.1 h'.1, everyAll_both hp hq h.2 h'.2⟩
  | map f c es | members c es => exact ⟨hp _ _ h.1 h'.1, everyEntry_both hp hq h.2 h'.2⟩
  | _ => exact hp _ _ h h'

theorem Doc.everyAll_both (hp : ∀ n d, p n d → p' n d → r n d)
    (hq : ∀ k, q k → q' k → u k) {n : Nat} {ds : List Doc}
    (h : Doc.EveryAll p q n ds) (h' : Doc.EveryAll p' q' n ds) : Doc.EveryAll r u n ds := by
  match ds with
  | [] => exact trivial
  | d :: ds => exact ⟨h.1.both hp hq h'.1, everyAll_both hp hq h.2 h'.2⟩

theorem Doc.everyEntry_both (hp : ∀ n d, p n d → p' n d → r n d)
    (hq : ∀ k, q k → q' k → u k) {n : Nat} {es : List (DocKey × Doc)} (h : Doc.EveryEntry p q n es)
    (h' : Doc.EveryEntry p' q' n es) : Doc.EveryEntry r u n es := by
  match es with
  | [] => exact trivial
  | (k, d) :: es =>
    exact ⟨hq k h.1 h'.1, h.2.1.both hp hq h'.2.1, everyEntry_both hp hq h.2.2 h'.2.2⟩

end

end

namespace Json

/-! ### The document of a value -/

/-- The names of the members are text. -/
def NamesValid (env : Env) : Prop := ∀ id, ∀ f ∈ (env.structs id).fields, Utf8.Valid f.wireName

/-- The integers are those of 64-bit types, and the doubles are finite. -/
def InRange : Doc → Prop
  | .uint _ k => k < 2 ^ 64
  | .sint _ i => Cbor.Int64Range i
  | .real _ x => Finite x
  | _ => True

/-- The key is text, and a member has a valid name. -/
def KeyInRange : DocKey → Prop
  | .name k => Utf8.Valid k
  | .intName _ => False
  | _ => True

/-- All numbers and keys of the document are in range. -/
def Shown (d : Doc) : Prop := ∀ n, d.Every (fun _ => InRange) KeyInRange n

/-- Every float of the value is finite. -/
abbrev FiniteFloats (v : Val) : Prop := v.Floats (fun x => Finite (doubleOfSingle x)) Finite

section

variable {env : Env}

theorem shown_array {f : FieldMeta} {c : Option Nat} {ds : List Doc} (h : ∀ d ∈ ds, Shown d) :
    Shown (.array f c ds) :=
  fun n => ⟨trivial, Doc.everyAll_iff.2 fun d hd => h d hd (n + 1)⟩

theorem shown_map {f : FieldMeta} {c : Option Nat} {es : List (DocKey × Doc)}
    (h : ∀ e ∈ es, KeyInRange e.1 ∧ Shown e.2) :
    Shown (.map f c es) :=
  fun n => ⟨trivial, Doc.everyEntry_iff.2 fun e he => ⟨(h e he).1, (h e he).2 (n + 1)⟩⟩

theorem shown_members {c : Nat} {es : List (DocKey × Doc)}
    (h : ∀ e ∈ es, KeyInRange e.1 ∧ Shown e.2) : Shown (.members c es) :=
  fun n => ⟨trivial, Doc.everyEntry_iff.2 fun e he => ⟨(h e he).1, (h e he).2 (n + 1)⟩⟩

theorem shown_int (f : FieldMeta) {k : IntTy} {i : Int} (h : k.Holds i) : Shown (intDoc f k i) := by
  have hrange := Cbor.int_range h
  unfold intDoc
  split at hrange
  · rename_i hsigned
    rw [if_pos hsigned]
    exact fun _ => hrange
  · rename_i hsigned
    rw [if_neg hsigned]
    exact fun _ => hrange

theorem shown_enum {f : FieldMeta} {e : EnumDef} {i : Int} {d : Doc} (hi : e.underlying.Holds i)
    (h : lowerEnum traits f e i = some d) : Shown d := by
  unfold lowerEnum at h
  split at h
  · split at h
    · cases h
    · cases h
      exact shown_int f hi
  · split at h
    · split at h
      · cases h
      · cases h
        exact fun _ => trivial
    · cases h

theorem keyInRange_lowerKey {kt : KeyTy} {k : Key} {x : DocKey} (h : lowerKey kt k = some x) :
    KeyInRange x := by
  unfold lowerKey at h
  split at h
  · cases h
    exact trivial
  · cases h
    split <;> exact trivial
  · cases h

/-- A member is written without tags, and a range as it is. -/
theorem lowerFieldValue_plain (f : FieldMeta) (d : Option Doc) (t : Ty) (v : Val) (x : Doc)
    (h : lowerFieldValue env traits f d t v = some x) : x = .null ∨ d = some x := by
  fun_induction lowerFieldValue env traits f d t v with
  | case1 t v ih => exact ih h
  | case2 t v hv => exact .inl (Option.some.inj h).symm
  | case3 t v _ _ =>
    rw [if_neg (show ¬ traits.bulkRange f t = true from Bool.false_ne_true)] at h
    obtain ⟨y, hy, rfl⟩ := Option.map_eq_some_iff.1 h
    exact .inr hy

theorem shown_fieldValue {f : FieldMeta} {d : Option Doc} {t : Ty} {v : Val} {x : Doc}
    (hd : ∀ x, d = some x → Shown x) (h : lowerFieldValue env traits f d t v = some x) :
    Shown x := by
  rcases lowerFieldValue_plain f d t v x h with rfl | hx
  · exact fun _ => trivial
  · exact hd x hx

theorem floatsAll_iff {p : Single → Prop} {q : Double → Prop} {vs : List Val} :
    Val.FloatsAll p q vs ↔ ∀ v ∈ vs, v.Floats p q := by
  induction vs with
  | nil => exact iff_of_true trivial (List.forall_mem_nil _)
  | cons v vs ih => rw [Val.FloatsAll, ih, List.forall_mem_cons]

theorem floatsEntries_iff {p : Single → Prop} {q : Double → Prop} {es : List (Key × Val)} :
    Val.FloatsEntries p q es ↔ ∀ e ∈ es, e.2.Floats p q := by
  induction es with
  | nil => exact iff_of_true trivial (List.forall_mem_nil _)
  | cons e es ih => rw [Val.FloatsEntries, ih, List.forall_mem_cons]

/-- Whatever is written for the value is in range. -/
abbrev LowersShown (env : Env) (v : Val) : Prop :=
  ∀ f t d, Inhabits env t v → FiniteFloats v → lower env traits declared f t v = some d → Shown d

theorem shown_struct (hnames : NamesValid env) {id : Nat} {tagKey tagValue : Bytes} {vs : List Val}
    {d : Doc} (hvs : ∀ w ∈ vs, LowersShown env w) (hfinite : ∀ w ∈ vs, FiniteFloats w)
    (hin : ∀ (i : Nat) f v, (env.structs id).fields[i]? = some f → vs[i]? = some v →
      Inhabits env f.ty v)
    (h : lowerStruct env traits declared (env.structs id) tagKey tagValue
      (lowerFields env traits declared (env.structs id).fields vs) = some d) : Shown d := by
  have hmembers : ∀ m ∈ lowerFields env traits declared (env.structs id).fields vs,
      m.field ∈ (env.structs id).fields ∧ ∀ x, m.doc = some x → Shown x := by
    intro m hm
    obtain ⟨i, hi⟩ := List.getElem?_of_mem hm
    obtain ⟨f, v, hf, hv, rfl⟩ := getElem?_lowerFields.1 hi
    have hmem := List.mem_of_getElem? hv
    exact ⟨List.mem_of_getElem? hf, fun x hx =>
      hvs v hmem f.info f.ty x (hin i f v hf hv) (hfinite v hmem) hx⟩
  unfold lowerStruct at h
  split at h
  · split at h
    · rename_i m hm
      exact (hmembers m (hm ▸ List.mem_singleton_self m)).2 d h
    · cases h
  · obtain ⟨es, hes, h⟩ := Option.bind_eq_some_iff.1 h
    have hall : ∀ e ∈ es, KeyInRange e.1 ∧ Shown e.2 := by
      refine mapM_id_forall hes fun e he => ?_
      obtain ⟨m, hm, he⟩ := List.mem_map.1 he
      obtain ⟨y, hy, rfl⟩ := Option.map_eq_some_iff.1 he
      obtain ⟨i, -, hi⟩ := List.mem_filterMap.1 hm
      obtain ⟨hfield, hdoc⟩ := hmembers m (List.mem_of_getElem? (Option.filter_eq_some_iff.1 hi).1)
      exact ⟨hnames id m.field hfield, shown_fieldValue hdoc hy⟩
    by_cases htag : tagKey = []
    · rw [if_pos htag] at h
      cases h
      exact shown_members hall
    · rw [if_neg htag] at h
      cases h
      exact shown_map (List.forall_mem_cons.2 ⟨⟨trivial, fun _ => trivial⟩, hall⟩)

/-- A range, in its own form or as text. -/
theorem shown_range {f : FieldMeta} {T t : Ty} {vs : List Val} {d : Doc}
    (hvs : ∀ w ∈ vs, LowersShown env w) (hfinite : ∀ w ∈ vs, FiniteFloats w)
    (hin : ∀ w ∈ vs, Inhabits env t w)
    (h : (if traits.isBytes f T then some (.bytes f (asBytes (.seq vs)))
      else ((lowerAll env traits declared f t vs).mapM id).map
        (.array f (sizeOf? env T vs.length))) = some d) : Shown d := by
  split at h
  · cases h
    exact fun _ => trivial
  · obtain ⟨ds, hds, rfl⟩ := Option.map_eq_some_iff.1 h
    exact shown_array (DocRules.forall_of_forall₂ (lowered_all hds) fun w hw x hx =>
      hvs w hw f t x (hin w hw) (hfinite w hw) hx)

theorem shown_tuple {f : FieldMeta} {ts : List Ty} {vs : List Val} {ds : List Doc}
    (hlength : vs.length = ts.length) (hvs : ∀ w ∈ vs, LowersShown env w)
    (hfinite : ∀ w ∈ vs, FiniteFloats w)
    (hparts : ∀ (i : Nat) t v, ts[i]? = some t → vs[i]? = some v → Inhabits env t v)
    (hds : (lowerEach env traits declared f ts vs).mapM id = some ds) : ∀ d ∈ ds, Shown d := by
  obtain ⟨hcount, hall⟩ := lowered_each hlength hds
  intro x hx
  obtain ⟨i, hi⟩ := List.getElem?_of_mem hx
  have hlt := (List.getElem?_eq_some_iff.1 hi).1
  have hv : vs[i]? = some vs[i] := List.getElem?_eq_getElem (hcount ▸ hlt)
  have ht : ts[i]? = some ts[i] := List.getElem?_eq_getElem (hlength ▸ hcount ▸ hlt)
  have hmem := List.mem_of_getElem? hv
  exact hvs _ hmem f _ x (hparts i _ _ ht hv) (hfinite _ hmem) (hall i _ _ _ ht hv hi)

/-- The numbers of a value are in range in its document, and the names of the members are valid. -/
theorem lower_shown (hnames : NamesValid env) (v : Val) : LowersShown env v := by
  induction v using Val.parts with
  | h v ih =>
    intro f t d hv hfinite h
    have hseq : ∀ {vs : List Val}, v = .seq vs → (∀ w ∈ vs, LowersShown env w) ∧
      ∀ w ∈ vs, FiniteFloats w := by
      rintro vs rfl
      exact ⟨fun w hw => ih w (Val.sizeOf_seq hw), floatsAll_iff.1 hfinite⟩
    cases hv with
    | bool | char | text | byteRange | null =>
      cases h
      exact fun _ => trivial
    | float | double =>
      cases h
      exact fun _ => hfinite
    | int hk =>
      cases h
      exact shown_int f hk
    | enum hk => exact shown_enum hk h
    | ticks | time => cases h
    | some hv => exact ih _ (Val.sizeOf_some _) f _ d hv hfinite h
    | @variant alts i v name t halt hv =>
      rw [lower, halt] at h
      cases htag : internallyTagged env t with
      | some c =>
        simp only [htag] at h
        obtain ⟨id, rfl, rfl, -⟩ := internallyTagged_eq_some htag
        cases hv with
        | struct _ hin =>
          exact shown_struct hnames
            (fun w hw => ih w ((Val.sizeOf_seq hw).trans (Val.sizeOf_variant i _)))
            (floatsAll_iff.1 hfinite) hin h
      | none =>
        simp only [htag] at h
        obtain ⟨x, hx, rfl⟩ := Option.map_eq_some_iff.1 h
        have hvalue := ih v (Val.sizeOf_variant i v) noField t x hv hfinite hx
        exact shown_map (List.forall_mem_cons.2 ⟨⟨trivial, fun _ => trivial⟩,
          List.forall_mem_singleton.2 ⟨(by decide : Utf8.Valid variantValueKey), hvalue⟩⟩)
    | map hkeys hes =>
      obtain ⟨xs, hxs, rfl⟩ := Option.map_eq_some_iff.1 h
      refine shown_map (DocRules.forall_of_forall₂ (lowered_keys hxs) fun e he x hx => ⟨?_, ?_⟩)
      · exact keyInRange_lowerKey hx.1
      · exact ih e.2 (Val.sizeOf_map he) f _ x.2 (hes e he) (floatsEntries_iff.1 hfinite e he) hx.2
    | tuple hlength hparts =>
      obtain ⟨ds, hds, rfl⟩ := Option.map_eq_some_iff.1 h
      obtain ⟨hvs, hfinite⟩ := hseq rfl
      exact shown_array (shown_tuple hlength hvs hfinite hparts hds)
    | array _ hin =>
      rw [lower] at h
      obtain ⟨hvs, hfinite⟩ := hseq rfl
      exact shown_range hvs hfinite hin h
    | seq hin =>
      rw [lower] at h
      obtain ⟨hvs, hfinite⟩ := hseq rfl
      exact shown_range hvs hfinite hin h
    | struct _ hin =>
      obtain ⟨hvs, hfinite⟩ := hseq rfl
      exact shown_struct hnames hvs hfinite hin h

theorem lowerTop_shown (hnames : NamesValid env) {t : Ty} {v : Val} {d : Doc}
    (hv : Inhabits env t v) (hfinite : FiniteFloats v)
    (h : lowerTop env traits declared t v = some d) : Shown d :=
  shown_fieldValue (fun x hx => lower_shown hnames v noField t x hv hfinite hx) h

end

/-! ### The limits of the two sides -/

/-- The reader goes as deep as the writer, and looks at no text that the writer has not looked
at. -/
structure Suits (o p : Options) : Prop where
  depth : o.maxDepth ≤ p.maxDepth
  utf8 : p.validateUtf8 = true → o.validateUtf8 = true

section

variable {o p : Options} {n : Nat} {d : Doc}

theorem legible_of_sound (hs : Suits o p) (hsound : Sound o n d) (hshown : Shown d) :
    Legible p n d := by
  refine Doc.Every.both (fun n d hw hr => ?_) (fun k hw hr => ?_) hsound (hshown n)
  · cases d with
    | uint f k | sint f i | real f x => exact hr
    | text f t => exact fun hutf => hw (hs.utf8 hutf)
    | range t v => exact hw
    | array f c ds => exact lt_of_lt_of_le hw hs.depth
    | map f c es | members c es => exact lt_of_lt_of_le hw hs.depth
    | _ => exact trivial
  · cases k with
    | text k => exact fun hutf => hw (hs.utf8 hutf)
    | name k => exact fun _ => hr
    | intName i => exact hw
    | _ => exact trivial

end

end Json

end VCodec
