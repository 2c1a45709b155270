import VCodec.Calls
import VCodec.Core.LandsValue

/-!
# What holds of every document of a value

A property of documents that every sink call has, and every container has if its parts have it,
holds of what is written for a value of its type. The rules are what a format shows of the property;
the theorem follows the value once for all of them.
-/

namespace VCodec

/-- What is shown of a property of documents, of keys and of the annotations that documents
carry. -/
structure DocRules (env : Env) (tr : Traits) (order : StructDef → List Nat) where
  doc : Doc → Prop
  key : DocKey → Prop
  info : FieldMeta → Prop
  info_none : info noField
  info_member : ∀ id, ∀ f ∈ (env.structs id).fields, info f.info
  null : doc .null
  boolean : ∀ b, doc (.boolean b)
  int : ∀ {f} {k : IntTy} {i : Int}, info f → k.Holds i → doc (intDoc f k i)
  real : ∀ {f x}, info f → doc (.real f x)
  text : ∀ {f t}, info f → doc (.text f t)
  bytes : ∀ {f b}, info f → doc (.bytes f b)
  seconds : ∀ c v, doc (.sint noField (env.secondsOfTime c v))
  wholeSeconds : ∀ {x i}, wholeSeconds x = some i → doc (.sint noField i)
  range : ∀ t v, doc (.range t v)
  tags : ∀ {f t d}, info f → doc d → doc ((tr.expectedTags env f t).foldr .tag d)
  array : ∀ {f n ds}, info f → (∀ c ∈ n, c = ds.length) → (∀ d ∈ ds, doc d) → doc (.array f n ds)
  map : ∀ {f n es}, info f → (∀ c ∈ n, c = es.length) → (∀ e ∈ es, key e.1 ∧ doc e.2) →
    doc (.map f n es)
  members : ∀ {id n es}, n = es.length → (∀ e ∈ es, key e.1 ∧ doc e.2) →
    (es.map Prod.fst).Sublist ((order (env.structs id)).filterMap fun i =>
      (env.structs id).fields[i]?.map (keyOf tr (env.structs id))) → doc (.members n es)
  key_text : ∀ k, key (.text k)
  key_value : key (.name variantValueKey)
  key_int : ∀ {k : IntTy} {i : Int}, k.Holds i → key (if k.signed then .sint i else .uint i.toNat)
  key_member : ∀ id, ∀ f ∈ (env.structs id).fields, key (keyOf tr (env.structs id) f)

/-- A value of the type. -/
inductive Inhabits (env : Env) : Ty → Val → Prop
  | bool {b} : Inhabits env .bool (.bool b)
  | char {c} : Inhabits env .char (.char c)
  | float {x} : Inhabits env .float (.single x)
  | double {x} : Inhabits env .double (.real x)
  | text {view x} : Inhabits env (.string view) (.text x)
  | int {k i} : k.Holds i → Inhabits env (.int k) (.int i)
  | enum {e i} : e.underlying.Holds i → Inhabits env (.enum e) (.int i)
  | ticks {c i} : Inhabits env (.time c) (.int i)
  | time {c x} : Inhabits env (.time c) (.real x)
  | byteRange {r b} : Inhabits env (.byteRange r) (.bytes b)
  | some {t v} : Inhabits env t v → Inhabits env (.optional t) (.some v)
  | null {t} : Inhabits env (.optional t) .null
  | variant {alts : List (Bytes × Ty)} {i v name t} : alts[i]? = some (name, t) → Inhabits env t v →
      Inhabits env (.variant alts) (.variant i v)
  | map {kind kt t} {es : List (Key × Val)} : (∀ e ∈ es, kt.Holds e.1) →
      (∀ e ∈ es, Inhabits env t e.2) →
      Inhabits env (.map kind kt t) (.map es)
  | tuple {ts : List Ty} {vs : List Val} : vs.length = ts.length →
      (∀ (i : Nat) t v, ts[i]? = some t → vs[i]? = some v → Inhabits env t v) →
        Inhabits env (.tuple ts) (.seq vs)
  | array {n t} {vs : List Val} : vs.length = n → (∀ v ∈ vs, Inhabits env t v) →
      Inhabits env (.array n t) (.seq vs)
  | seq {kind t} {vs : List Val} : (∀ v ∈ vs, Inhabits env t v) →
      Inhabits env (.seq kind t) (.seq vs)
  | struct {id} {vs : List Val} : vs.length = (env.structs id).fields.length →
      (∀ (i : Nat) f v, (env.structs id).fields[i]? = some f → vs[i]? = some v →
        Inhabits env f.ty v) →
      Inhabits env (.struct id) (.seq vs)

theorem properEach_replicate {env : Env} {f : FieldMeta} {n : Nat} {t : Ty} {vs : List Val}
    (h : ProperEach env f (List.replicate n t) vs) :
    vs.length = n ∧ ∀ v ∈ vs, Proper env f t v := by
  obtain ⟨hlen, hparts⟩ := properEach_iff.1 h
  rw [List.length_replicate] at hlen
  refine ⟨hlen, fun v hv => ?_⟩
  obtain ⟨i, hi⟩ := List.getElem?_of_mem hv
  have hlt := (List.getElem?_eq_some_iff.1 hi).1
  rw [hlen] at hlt
  exact hparts i t v (by rw [List.getElem?_replicate, if_pos hlt]) hi

theorem Proper.inhabits {env : Env} {f : FieldMeta} {t : Ty} {v : Val} (hv : Proper env f t v) :
    Inhabits env t v := by
  induction v using Val.parts generalizing f t with
  | h v ih =>
    have hfields : ∀ {id vs}, (∀ w ∈ vs, sizeOf w < sizeOf v) →
      ProperFields env (env.structs id).fields vs →
        Inhabits env (.struct id) (.seq vs) := by
      intro id vs hsize hfs
      obtain ⟨hlen, hparts⟩ := properFields_iff.1 hfs
      exact .struct hlen fun i f w hf hw => ih w (hsize w (List.mem_of_getElem? hw))
        (hparts i f w hf hw)
    cases t with
    | bool => cases v <;> first | exact hv.elim | exact .bool
    | char => cases v <;> first | exact hv.elim | exact .char
    | float => cases v <;> first | exact hv.elim | exact .float
    | double => cases v <;> first | exact hv.elim | exact .double
    | string view => cases v <;> first | exact hv.elim | exact .text
    | byteRange r => cases v <;> first | exact hv.elim | exact .byteRange
    | int k => cases v <;> first | exact hv.elim | exact .int hv
    | enum e => cases v <;> first | exact hv.elim | exact .enum hv
    | time c => cases v <;> first | exact hv.elim | exact .ticks | exact .time
    | optional t =>
      cases v with
      | null => exact .null
      | some v => exact .some (ih v (Val.sizeOf_some v) hv)
      | _ => exact hv.elim
    | variant alts =>
      cases v with
      | variant i v =>
        obtain ⟨-, alt, halt, hv⟩ := hv
        exact .variant halt (ih v (Val.sizeOf_variant i v) hv)
      | _ => exact hv.elim
    | map kind kt t =>
      cases v with
      | map es =>
        exact .map hv.2.1 fun e he => ih e.2 (Val.sizeOf_map he) (properEntries_iff.1 hv.2.2 e he)
      | _ => exact hv.elim
    | tuple ts =>
      cases v with
      | seq vs =>
        obtain ⟨hlen, hparts⟩ := properEach_iff.1 hv
        exact .tuple hlen fun i t w ht hw => ih w (Val.sizeOf_seq (List.mem_of_getElem? hw))
          (hparts i t w ht hw)
      | _ => exact hv.elim
    | array n t =>
      cases v with
      | seq vs =>
        rw [Proper] at hv
        obtain ⟨hlen, hparts⟩ := properEach_replicate hv
        exact .array hlen fun w hw => ih w (Val.sizeOf_seq hw) (hparts w hw)
      | _ => exact hv.elim
    | seq kind t =>
      cases v with
      | seq vs =>
        rw [Proper] at hv
        exact .seq fun w hw => ih w (Val.sizeOf_seq hw) ((properEach_replicate hv.1).2 w hw)
      | _ => exact hv.elim
    | struct st =>
      cases v with
      | seq vs => exact hfields (fun w hw => Val.sizeOf_seq hw) hv
      | _ => exact hv.elim

namespace DocRules

variable {env : Env} {tr : Traits} {order : StructDef → List Nat}

theorem forall_of_forall₂ {α β : Type} {R : α → β → Prop} {P : β → Prop} {as : List α} {bs : List β}
    (h : List.Forall₂ R as bs) (hR : ∀ a ∈ as, ∀ b, R a b → P b) : ∀ b ∈ bs, P b := by
  induction h with
  | nil => exact List.forall_mem_nil _
  | cons hab _ ih =>
    obtain ⟨hhead, htail⟩ := List.forall_mem_cons.1 hR
    exact List.forall_mem_cons.2 ⟨hhead _ hab, ih htail⟩

variable (R : DocRules env tr order)

theorem lowerKey {kt : KeyTy} {k : Key} {dk : DocKey} (hk : kt.Holds k)
    (h : VCodec.lowerKey kt k = some dk) : R.key dk := by
  cases kt with
  | text view =>
    cases k with
    | text k =>
      cases h
      exact R.key_text k
    | int i => cases h
  | int kt =>
    cases k with
    | text k => cases h
    | int i =>
      cases h
      exact R.key_int hk

theorem lowerTime (f : FieldMeta) (c : Duration) (v : Val) :
    R.doc (VCodec.lowerTime env f c v) := by
  unfold VCodec.lowerTime
  split
  · exact R.text R.info_none
  split
  · exact R.seconds c v
  · cases hwhole : VCodec.wholeSeconds (env.realOfTime c v) with
    | some i => exact R.wholeSeconds hwhole
    | none => exact R.real R.info_none

theorem lowerEnum {f : FieldMeta} (hf : R.info f) {e : EnumDef} {i : Int} {d : Doc}
    (hi : e.underlying.Holds i) (h : VCodec.lowerEnum tr f e i = some d) : R.doc d := by
  unfold VCodec.lowerEnum at h
  split at h
  · split at h
    · cases h
    · cases h
      exact R.int hf hi
  · split at h
    · split at h
      · cases h
      · cases h
        exact R.text R.info_none
    · cases h

theorem lowerFieldValue {f : FieldMeta} (hf : R.info f) {plain : Option Doc} {t : Ty} {v : Val}
    {d : Doc} (hplain : ∀ d, plain = some d → R.doc d)
    (h : VCodec.lowerFieldValue env tr f plain t v = some d) : R.doc d := by
  fun_induction VCodec.lowerFieldValue env tr f plain t v with
  | case1 t v ih => exact ih h
  | case2 t v hv =>
    cases h
    exact R.null
  | case3 t v _ _ =>
    obtain ⟨x, hx, rfl⟩ := Option.map_eq_some_iff.1 h
    apply R.tags hf
    split at hx
    · cases hx
      exact R.range t v
    · exact hplain x hx

/-- The property holds of whatever is made of the value. -/
abbrev Lowered (v : Val) : Prop :=
  ∀ f t d, R.info f → Inhabits env t v → VCodec.lower env tr order f t v = some d → R.doc d

/-- The keys of an object are some of those of its members, in their order. -/
theorem written_keys {d : StructDef} {is : List Nat} {vs : List Val} {es : List (DocKey × Doc)}
    (hes : ((is.filterMap fun i => (lowerFields env tr order d.fields vs)[i]?.filter
      (DocMember.emitted env)).map
      (DocMember.entry env tr d)).mapM id = some es) :
    (es.map Prod.fst).Sublist (is.filterMap fun i => d.fields[i]?.map (keyOf tr d)) := by
  induction is generalizing es with
  | nil =>
    cases hes
    exact .slnil
  | cons i is ih =>
    rw [List.filterMap_cons] at hes
    cases hm : (lowerFields env tr order d.fields vs)[i]?.filter (DocMember.emitted env) with
    | none =>
      rw [hm] at hes
      refine (ih hes).trans ?_
      rw [List.filterMap_cons]
      split
      · exact List.Sublist.refl _
      · exact List.sublist_cons_self _ _
    | some m =>
      rw [hm, List.map_cons, mapM_id_cons] at hes
      obtain ⟨e, he, hes⟩ := Option.bind_eq_some_iff.1 hes
      obtain ⟨rest, hrest, rfl⟩ := Option.map_eq_some_iff.1 hes
      obtain ⟨x, -, rfl⟩ := Option.map_eq_some_iff.1 he
      obtain ⟨f, v, hf, -, rfl⟩ := getElem?_lowerFields.1 (Option.filter_eq_some_iff.1 hm).1
      rw [List.filterMap_cons, hf]
      exact (ih hrest).cons_cons _

variable (horder : ∀ d, (order d).Perm (List.range d.fields.length))

include horder

theorem lowerStruct {st : Nat} {tagKey tagValue : Bytes} {vs : List Val} {d : Doc}
    (hvs : ∀ w ∈ vs, R.Lowered w)
    (hin : ∀ (i : Nat) f v, (env.structs st).fields[i]? = some f → vs[i]? = some v →
      Inhabits env f.ty v)
    (h : VCodec.lowerStruct env tr order (env.structs st) tagKey tagValue
      (lowerFields env tr order (env.structs st).fields vs) = some d) : R.doc d := by
  have hmembers : ∀ m ∈ lowerFields env tr order (env.structs st).fields vs,
      m.field ∈ (env.structs st).fields ∧ ∀ x, m.doc = some x → R.doc x := by
    intro m hm
    obtain ⟨i, hi⟩ := List.getElem?_of_mem hm
    obtain ⟨f, v, hf, hv, rfl⟩ := getElem?_lowerFields.1 hi
    have hfield := List.mem_of_getElem? hf
    exact ⟨hfield, fun x hx => hvs v (List.mem_of_getElem? hv) f.info f.ty x
      (R.info_member st f hfield) (hin i f v hf hv) hx⟩
  have hentries : ∀ es, ((written env order (env.structs st)
      (lowerFields env tr order (env.structs st).fields vs)).map
      (DocMember.entry env tr (env.structs st))).mapM id = some es →
      es.length =
        ((lowerFields env tr order (env.structs st).fields vs).filter
        (DocMember.emitted env)).length ∧
        ∀ e ∈ es, R.key e.1 ∧ R.doc e.2 := by
    intro es hes
    constructor
    · rw [length_mapM_id hes, List.length_map, written_length (horder _) (length_lowerFields _ vs)]
    · refine mapM_id_forall hes fun e he => ?_
      obtain ⟨m, hm, he⟩ := List.mem_map.1 he
      obtain ⟨y, hy, rfl⟩ := Option.map_eq_some_iff.1 he
      obtain ⟨i, -, hi⟩ := List.mem_filterMap.1 hm
      obtain ⟨hfield, hdoc⟩ := hmembers m (List.mem_of_getElem? (Option.filter_eq_some_iff.1 hi).1)
      exact ⟨R.key_member st m.field hfield,
        R.lowerFieldValue (R.info_member st m.field hfield) hdoc hy⟩
  unfold VCodec.lowerStruct at h
  split at h
  · split at h
    · rename_i m hm
      exact (hmembers m (hm ▸ List.mem_singleton_self m)).2 d h
    · cases h
  · obtain ⟨es, hes, h⟩ := Option.bind_eq_some_iff.1 h
    obtain ⟨hcount, hall⟩ := hentries es hes
    by_cases htag : tagKey = []
    · rw [if_pos htag] at h
      cases h
      rw [if_pos htag]
      exact R.members hcount.symm hall (written_keys hes)
    · rw [if_neg htag] at h
      cases h
      rw [if_neg htag]
      refine R.map R.info_none (fun c hc => ?_)
        (List.forall_mem_cons.2 ⟨⟨R.key_text _, R.text R.info_none⟩, hall⟩)
      rw [← Option.some.inj hc, List.length_cons, hcount]

omit horder in
/-- A range, in its own form or as a byte string. -/
theorem lowerRange {f : FieldMeta} (hf : R.info f) {T t : Ty} {vs : List Val} {d : Doc}
    (hvs : ∀ w ∈ vs, R.Lowered w) (hin : ∀ w ∈ vs, Inhabits env t w)
    (h : (if tr.isBytes f T then some (.bytes f (asBytes (.seq vs)))
      else ((lowerAll env tr order f t vs).mapM id).map (.array f (sizeOf? env T vs.length))) =
        some d) : R.doc d := by
  split at h
  · cases h
    exact R.bytes hf
  · obtain ⟨ds, hds, rfl⟩ := Option.map_eq_some_iff.1 h
    have hall := lowered_all hds
    refine R.array hf (fun c hc => ?_)
      (forall_of_forall₂ hall fun w hw x hx => hvs w hw f t x hf (hin w hw) hx)
    rw [sizeOf?_eq hc, hall.length_eq]

/-- The property holds of the document of a value of its type. -/
theorem lower (v : Val) : R.Lowered v := by
  induction v using Val.parts with
  | h v ih =>
    intro f t d hf hv h
    have hseq : ∀ {vs : List Val}, v = .seq vs → ∀ w ∈ vs, R.Lowered w := by
      rintro vs rfl w hw
      exact ih w (Val.sizeOf_seq hw)
    cases hv with
    | bool =>
      cases h
      exact R.boolean _
    | float | double =>
      cases h
      exact R.real hf
    | char =>
      cases h
      exact R.text R.info_none
    | text =>
      cases h
      exact R.text hf
    | byteRange =>
      cases h
      exact R.bytes hf
    | int hk =>
      cases h
      exact R.int hf hk
    | enum hk => exact R.lowerEnum hf hk h
    | ticks | time =>
      rw [VCodec.lower] at h
      split at h <;> cases h
      exact R.lowerTime f _ _
    | some hv => exact ih _ (Val.sizeOf_some _) f _ d hf hv h
    | null =>
      cases h
      exact R.null
    | @variant alts i v name t halt hv =>
      rw [VCodec.lower, halt] at h
      cases htag : internallyTagged env t with
      | some c =>
        simp only [htag] at h
        obtain ⟨id, rfl, rfl, -⟩ := internallyTagged_eq_some htag
        cases hv with
        | struct _ hin =>
          exact R.lowerStruct horder
            (fun w hw => ih w ((Val.sizeOf_seq hw).trans (Val.sizeOf_variant i _))) hin h
      | none =>
        simp only [htag] at h
        obtain ⟨x, hx, rfl⟩ := Option.map_eq_some_iff.1 h
        have hvalue := ih v (Val.sizeOf_variant i v) noField t x R.info_none hv hx
        exact R.map R.info_none (fun c hc => (Option.some.inj hc).symm) (List.forall_mem_cons.2
          ⟨⟨R.key_text _, R.text R.info_none⟩, List.forall_mem_singleton.2 ⟨R.key_value, hvalue⟩⟩)
    | map hkeys hes =>
      obtain ⟨xs, hxs, rfl⟩ := Option.map_eq_some_iff.1 h
      have hall := lowered_keys hxs
      refine R.map hf (fun c hc => ?_) (forall_of_forall₂ hall fun e he x hx => ⟨?_, ?_⟩)
      · rw [sizeOf?_eq hc, hall.length_eq]
      · exact R.lowerKey (hkeys e he) hx.1
      · exact ih e.2 (Val.sizeOf_map he) f _ x.2 hf (hes e he) hx.2
    | @tuple ts vs hlength hparts =>
      obtain ⟨ds, hds, rfl⟩ := Option.map_eq_some_iff.1 h
      obtain ⟨hcount, hall⟩ := lowered_each hlength hds
      refine R.array R.info_none (fun c hc => (Option.some.inj hc).symm) fun x hx => ?_
      obtain ⟨i, hi⟩ := List.getElem?_of_mem hx
      have hi' := (List.getElem?_eq_some_iff.1 hi).1
      have hvi : vs[i]? = some vs[i] := List.getElem?_eq_getElem (hcount ▸ hi')
      have hti : ts[i]? = some ts[i] := List.getElem?_eq_getElem (hlength ▸ hcount ▸ hi')
      exact hseq rfl _ (List.mem_of_getElem? hvi) f _ x hf (hparts i _ _ hti hvi)
        (hall i _ _ _ hti hvi hi)
    | array _ hvs =>
      rw [VCodec.lower] at h
      exact R.lowerRange hf (hseq rfl) hvs h
    | seq hvs =>
      rw [VCodec.lower] at h
      exact R.lowerRange hf (hseq rfl) hvs h
    | struct _ hin => exact R.lowerStruct horder (hseq rfl) hin h

/-- The property holds of the document of a top-level value. -/
theorem lowerTop {t : Ty} {v : Val} {d : Doc} (hv : Inhabits env t v)
    (h : VCodec.lowerTop env tr order t v = some d) :
    R.doc d :=
  R.lowerFieldValue R.info_none (fun x hx => R.lower horder v noField t x R.info_none hv hx) h

end DocRules

end VCodec
