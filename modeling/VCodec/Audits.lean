import VCodec.Core.Admitted
import VCodec.Cbor.Allocated
import VCodec.DecodeAll

/-!
# The audits of the two formats

The rules of the two formats for the audit, what the audit of a program accepts, and what it is for:
from any input at all, `decode_all` into a type that the audit accepts comes to an end with a value
and a list of errors.
-/

namespace VCodec

open Relation (ReflTransGen)
open Schema

/-! ### Rules -/

namespace Json

def canLowerKey (f : VCodec.FieldMeta) : KeyTy → Bool
  | .text _ => true
  | .int _ => f.stringifyKeys

def rules : Rules where
  name := str "JSON"
  integerKeySpelling := str "integer key"
  bytesHint := str "Add [[=vcodec::json::bytes(vcodec::json::base64)]]"
  keyHint := str "Add [[=vcodec::json::stringify_keys]]"
  bytesBorrowable := false
  traits := traits
  canLowerBytes f := f.bytes.isSome
  canLowerKey := canLowerKey
  checkType _ _ := []
  checkField _ _ := []

end Json

namespace Cbor

def spansError (f : Schema.FieldMeta) : Bytes :=
  str "(declared [[=cbor::integer_keys]]) has a flattened or inherited member " ++
    f.info.qualified ++
    str ";\n  declaration-order key allocation is not defined across a flatten or a base class.\n  Give every member an explicit [[=vcodec::cbor::key(n)]]."

def flattensError (f : Schema.FieldMeta) : Bytes :=
  str "flattens " ++ f.owner.info.name ++
    str ", which is declared [[=cbor::integer_keys]];\n  declaration-order keys do not survive a flatten. Give " ++ f.owner.info.name ++
    str "'s members explicit [[=vcodec::cbor::key(n)]]."

/-- A member of a flattened class that allocates keys. -/
def flattensKeys (c : Schema.Class) (f : Schema.FieldMeta) : Bool :=
  f.info.flattened && (f.owner.info.id ≠ c.info.id && hasMark .integerKeys
    (typeAnnotations f.owner.info))

/-- `check_type`. -/
def checkClass (c : Schema.Class) (fs : List Schema.FieldMeta) : Bytes :=
  let anns := typeAnnotations c.info
  match if hasMark .integerKeys anns then fs.find? fun f =>
    f.info.flattened || f.info.inherited else none with
  | some f => spansError f
  | none =>
    match fs.find? (flattensKeys c) with
    | some f => flattensError f
    | none =>
      if hasMark .indefinite anns && hasMark .deterministic anns then indefiniteMessage else []

def floatingOrOptionalFloating : Ty → Bool
  | .float | .double | .optional .float | .optional .double => true
  | _ => false

def isSysTime : Ty → Bool
  | .time _ => true
  | _ => false

/-- A struct that announces itself, as a member. -/
def describesItself (classes : Nat → Schema.Class) : Ty → Bool
  | .struct id => hasMark .selfDescribe (typeAnnotations (classes id).info)
  | _ => false

/-- `check_field`. -/
def checkField (classes : Nat → Schema.Class) (f : Schema.FieldMeta) : Bytes :=
  let anns := f.annotations
  let ownerAnns := typeAnnotations f.owner.info
  let tags := anns.filterMap Ann.cborTag?
  if hasMark .typedArray anns && ! typedArrayRange f.type then
    str "is declared [[=cbor::typed_array]] but is not a contiguous range of a\n  fixed-width integer or floating type."
  else if (findAnn Ann.floatWidth? anns).isSome && ! floatingOrOptionalFloating f.type then
    str "is declared [[=cbor::float_width(...)]] but is not a floating type."
  else if isSysTime f.type && (tags.contains 0 && tags.contains 1) then
    str "carries [[=cbor::tag(1)]] and [[=cbor::tag(0)]]; a time point takes one of the two."
  else if hasMark .indefinite anns && hasMark .deterministic ownerAnns then
    str "is declared [[=cbor::indefinite]] inside " ++ f.owner.info.name ++
      str ", which is declared [[=cbor::deterministic]];\n  deterministic encoding forbids indefinite lengths."
  else if (findAnn Ann.key? anns).isSome && hasMark .transparent ownerAnns then
    str "carries [[=cbor::key(n)]] but " ++ f.owner.info.name ++
      str " is [[=vcodec::transparent]] and has no map."
  else if describesItself classes f.type then
    str "(a member) is declared [[=cbor::self_describe]]; the self-describe tag applies to a top-level value only."
  else []

def rules : Rules where
  name := str "CBOR"
  integerKeySpelling := str "cbor::key"
  bytesHint := []
  keyHint := []
  bytesBorrowable := true
  traits := traits
  canLowerBytes _ := true
  canLowerKey _ _ := true
  checkType := checkClass
  checkField := checkField

end Cbor

/-! ### What the audit accepts -/

theorem state_of_audit {F : Rules} {P : Types} {dir : Direction} {n : Nat} {t : Ty}
    {r : AuditResult} (h : audit F P n dir t = some r) :
    ∃ st, auditType F P n noField t (P.typeName t) { dir } = some st ∧
      (r.ok = true ↔ st.error = []) ∧ r.borrows = st.borrows := by
  obtain ⟨st, hst, rfl⟩ := Option.map_eq_some_iff.1 h
  refine ⟨st, hst, ?_, rfl⟩
  show (! st.failed) = true ↔ _
  rw [AuditState.failed]
  by_cases herror : st.error = []
  · simp [herror]
  · simp [herror]

theorem acceptable_of_ok
    {F : Rules} {P : Types} {dir : Direction} {n : Nat} {t : Ty} {r : AuditResult}
    (h : audit F P n dir t = some r) (hok : r.ok = true) {y : Node}
    (hy : ReflTransGen (Part F P dir) (noField, t) y) : Acceptable F P dir y := by
  obtain ⟨st, hst, hiff, -⟩ := state_of_audit h
  exact (admissible_of_audit hst ⟨hiff.1 hok, fun _ => trivial⟩ hy).acceptable

/-- The audit accepts a type exactly if all that is reached from it is acceptable, however the walk
turns back; and if all of it is, over finitely many structs, the walk comes to an end. -/
theorem audit_ok_iff {F : Rules} {P : Types} {dir : Direction} {t : Ty} :
    (∀ n r, audit F P n dir t = some r →
      (r.ok = true ↔ ∀ y, ReflTransGen (Part F P dir) (noField, t) y → Acceptable F P dir y)) ∧
    ((∃ ids : List Nat, ∀ f id, ReflTransGen (Part F P dir) (noField, t) (f, .struct id) → id ∈ ids)
      →
      (∀ y, ReflTransGen (Part F P dir) (noField, t) y → Acceptable F P dir y) →
      ∃ n, ∀ m ≥ n, ∃ r, audit F P m dir t = some r ∧ r.ok = true) := by
  have hok : ∀ n r, audit F P n dir t = some r →
    (∀ y, ReflTransGen (Part F P dir) (noField, t) y → Acceptable F P dir y) → r.ok = true := by
    intro n r h hall
    obtain ⟨st, hst, hiff, -⟩ := state_of_audit h
    have hclear : st.Clear dir True :=
      Passes.type (fun y hy => ⟨hall y hy, fun _ => trivial⟩) { dir } st hst
      ⟨rfl, rfl, fun _ => trivial⟩
    exact hiff.2 hclear.2.1
  constructor
  · exact fun n r h => ⟨fun hr _ hy => acceptable_of_ok h hr hy, hok n r h⟩
  · rintro ⟨ids, hids⟩ hall
    obtain ⟨n, hn⟩ := exists_audit hall hids
    refine ⟨n, fun m hm => ?_⟩
    obtain ⟨r, h⟩ := hn m hm
    exact ⟨r, h, hok m r h hall⟩

/-- A named disc with a flattened point, and a list of discs. -/
def shapes : Types where
  classes := fun id => if id = 0 then named else if id = 1 then point else disc
  typeName _ := str "Disc"
  typeStr _ := []
  equalityComparable _ := true
  defaultInitializable _ := true
  defaultAssignable _ _ := true

/-- A type without parts. -/
def plainTy : Ty → Bool
  | .string _ | .int _ | .double => true
  | _ => false

def shapesEnv : Env :=
  { (default : Env) with structs := fun id =>
    (structDef (shapes.classes id)).getD { name := [], fields := [] } }

/-- What the build and the audits answer for a disc and for a list of views. -/
theorem disc_runs :
    (runBuild disc).all
      (fun bs => bs.fields.all fun g => plainTy g.type && ! g.info.skipDeserializing) = true ∧
    (shapesEnv.structs 2).transparent = false ∧
    ((shapesEnv.structs 2).fields.all fun fd => ! fd.skipDeserializing) = true ∧
    (audit Json.rules shapes 3 .decode (.struct 2)).any (·.ok) = true ∧
    (audit Cbor.rules shapes 3 .decode (.struct 2)).any (·.ok) = true ∧
    (audit Json.rules shapes 4 .decode (.seq .vector (.struct 2))).any (·.ok) = true ∧
    (audit Json.rules shapes 2 .decode (.seq .vector (.string true))).any
      (fun r => r.ok && r.borrows) = true := by
  decide +kernel

/-- A disc has plain members, each of which is decoded. -/
theorem disc_plain {bs : BuildState} (h : runBuild disc = some bs) :
    ∀ g ∈ bs.fields, plainTy g.type = true ∧ g.info.skipDeserializing = false := by
  have hall := disc_runs.1
  rw [h] at hall
  intro g hg
  have hboth := List.all_eq_true.1 hall g hg
  rw [Bool.and_eq_true_iff, Bool.not_eq_true'] at hboth
  exact hboth

theorem reached_disc
    {F : Rules} {x : Node} (h : ReflTransGen (Part F shapes .decode) (noField, .struct 2) x) :
    x.2 = .struct 2 ∨ plainTy x.2 = true := by
  induction h with
  | refl => exact .inl rfl
  | tail _ hpart ih =>
    cases hpart with
    | member hb hg hskip hx =>
      rcases ih with hself | hplain
      · cases hself
        exact .inr (disc_plain hb _ hg).1
      · cases hplain
    | _ => rcases ih with hself | hplain <;> [cases hself; cases hplain]

theorem audit_ok_iff_shapes :
    (∃ r, audit Json.rules shapes 4 .decode (.seq .vector (.struct 2)) = some r ∧ r.ok = true ∧
      ∀ y, ReflTransGen (Part Json.rules shapes .decode) (noField, .seq .vector (.struct 2)) y →
        Acceptable Json.rules shapes .decode y) ∧
    ∃ n, ∀ m ≥ n, ∃ r, audit Json.rules shapes m .decode (.struct 2) = some r ∧ r.ok = true := by
  obtain ⟨-, -, -, hdisc, -, hdiscs, -⟩ := disc_runs
  obtain ⟨r, hr, hok⟩ := (Option.any_eq_true _ _).1 hdiscs
  obtain ⟨r₁, hr₁, hok₁⟩ := (Option.any_eq_true _ _).1 hdisc
  refine ⟨⟨r, hr, hok, (audit_ok_iff.1 4 r hr).1 hok⟩, ?_⟩
  refine audit_ok_iff.2 ⟨[2], fun f id hx => ?_⟩ ((audit_ok_iff.1 3 r₁ hr₁).1 hok₁)
  rcases reached_disc hx with hself | hplain
  · cases hself
    exact List.mem_singleton.2 rfl
  · cases hplain

/-- A type that the audit accepts borrows from the input exactly if something that is reached from
it does. -/
theorem audit_borrows_iff
    {F : Rules} {P : Types} {dir : Direction} {n : Nat} {t : Ty} {r : AuditResult}
    (h : audit F P n dir t = some r) (hok : r.ok = true) :
    r.borrows = true ↔ ∃ y, ReflTransGen (Part F P dir) (noField, t) y ∧ Borrows dir y := by
  obtain ⟨st, hst, hiff, hborrows⟩ := state_of_audit h
  rw [hborrows]
  constructor
  · have hclear : st.Clear dir (∃ y, ReflTransGen (Part F P dir) (noField, t) y ∧ Borrows dir y) :=
      Passes.type (fun y hy => ⟨acceptable_of_ok h hok hy, fun hb => ⟨y, hy, hb⟩⟩) { dir } st hst
        ⟨rfl, rfl, fun hno => by cases hno⟩
    exact hclear.2.2
  · rintro ⟨y, hy, hb⟩
    have hadmissible : Admissible F P dir (st.borrows = true) y :=
      admissible_of_audit hst ⟨hiff.1 hok, fun h => h⟩ hy
    exact hadmissible.borrows hb

/-- A list of views. -/
theorem audit_borrows_iff_views :
    ∃ r, audit Json.rules shapes 2 .decode (.seq .vector (.string true)) = some r ∧
    r.borrows = true ∧
    ∃ y, ReflTransGen (Part Json.rules shapes .decode) (noField, .seq .vector (.string true)) y ∧
      Borrows .decode y := by
  obtain ⟨-, -, -, -, -, -, hrun⟩ := disc_runs
  obtain ⟨r, hr, hboth⟩ := (Option.any_eq_true _ _).1 hrun
  obtain ⟨hok, hborrows⟩ := Bool.and_eq_true_iff.1 hboth
  exact ⟨r, hr, hborrows, (audit_borrows_iff hr hok).1 hborrows⟩

/-! ### What the audit is for -/

section

variable {F : Rules} {P : Types} {env : Env} {t : Ty}

/-- What the decode audit reaches from a type. -/
abbrev Reached (F : Rules) (P : Types) (t : Ty) (x : Node) : Prop :=
  ReflTransGen (Part F P .decode) (noField, t) x

/-- The structs of the program have the schemas of its classes. -/
def Modelled (P : Types) (env : Env) : Prop :=
  ∀ id d, structDef (P.classes id) = some d → env.structs id = d

/-- No type contains nothing but itself. -/
def Grounded (env : Env) (R : Node → Prop) : Prop :=
  ∃ (rank : Nat → Nat) (bound : Nat), (∀ x, R x → hops rank x.2 ≤ bound) ∧
    ∀ f id fd fs, R (f, .struct id) → (env.structs id).transparent = true →
      (env.structs id).fields = fd :: fs → hops rank fd.ty < rank id

/-- Every member is decoded. -/
def DecodesAll (env : Env) (R : Node → Prop) : Prop :=
  ∀ f id, R (f, .struct id) → ∀ fd ∈ (env.structs id).fields, fd.skipDeserializing = false

/-- Ranges of bytes are of `std::byte`s or of `std::uint8_t`s. -/
def ByteRanges (F : Rules) : Prop :=
  (∀ f n t, F.traits.isBytes f (.array n t) = true → t = .int uint8) ∧
    ∀ f kind t, F.traits.isBytes f (.seq kind t) = true → t = .int uint8

theorem mem_of_mapM {fs : List Schema.FieldMeta} {xs : List Field}
    (h : fs.mapM Schema.FieldMeta.field = some xs) {x : Field} (hx : x ∈ xs) :
    ∃ g ∈ fs, g.field = some x := by
  induction fs generalizing xs with
  | nil =>
    cases h
    cases hx
  | cons f fs ih =>
    rw [List.mapM_cons] at h
    obtain ⟨y, hy, h⟩ := Option.bind_eq_some_iff.1 h
    obtain ⟨ys, hys, h⟩ := Option.bind_eq_some_iff.1 h
    cases h
    rcases List.mem_cons.1 hx with rfl | hx
    · exact ⟨f, List.mem_cons_self, hy⟩
    · obtain ⟨g, hg, hgx⟩ := ih hys hx
      exact ⟨g, List.mem_cons_of_mem _ hg, hgx⟩

/-- A member of a schema is made of a field of the class. -/
theorem field_of_structDef {c : Schema.Class} {d : StructDef} (h : structDef c = some d) {x : Field}
    (hx : x ∈ d.fields) :
    ∃ bs g, runBuild c = some bs ∧ g ∈ bs.fields ∧ g.field = some x := by
  obtain ⟨ti, -, h⟩ := Option.bind_eq_some_iff.1 h
  obtain ⟨bs, hbs, h⟩ := Option.bind_eq_some_iff.1 h
  obtain ⟨xs, hxs, h⟩ := Option.bind_eq_some_iff.1 h
  by_cases hok : ti.ok = true
  · simp only [hok, if_true] at h
    cases h
    obtain ⟨g, hg, hgx⟩ := mem_of_mapM hxs hx
    exact ⟨bs, g, hbs, hg, hgx⟩
  · simp only [hok] at h
    cases h

theorem skip_of_field {g : Schema.FieldMeta} {x : Field} (h : g.field = some x) :
    x.skipDeserializing = g.info.skipDeserializing := by
  obtain ⟨o, -, hx⟩ := Option.bind_eq_some_iff.1 h
  cases hx
  rfl

/-- The decode audit reaches the members of a struct that it accepts. -/
theorem reached_member
    (henv : Modelled P env) (hall : ∀ y, Reached F P t y → Acceptable F P .decode y)
    (hdecodes : DecodesAll env (Reached F P t))
    {f : VCodec.FieldMeta} {id : Nat} (h : Reached F P t (f, .struct id)) :
    ∀ fd ∈ (env.structs id).fields, Reached F P t (fd.info, fd.ty) := by
  intro fd hfd
  have hsound : SoundStruct F P .decode id := hall _ h
  obtain ⟨d, hd⟩ := exists_structDef hsound.accepted
  have hskip := hdecodes f id h fd hfd
  rw [henv id d hd] at hfd
  obtain ⟨bs, g, hbs, hg, hgx⟩ := field_of_structDef hd hfd
  rw [ty_of_field hgx]
  exact h.tail (.member hbs hg ((skip_of_field hgx).symm.trans hskip) hgx)

/-- A type that the decode audit accepts is one that the decoder supports. -/
theorem supported_of_acceptable
    (hbytes : ByteRanges F) (henv : Modelled P env) (hground : Grounded env (Reached F P t))
    (hdecodes : DecodesAll env (Reached F P t))
    (hall : ∀ y, Reached F P t y → Acceptable F P .decode y) : Supported env F.traits t := by
  obtain ⟨rank, bound, hbound, htransparent⟩ := hground
  let holds : VCodec.FieldMeta → Ty → Prop := fun f u => Reached F P t (f, u) ∨ u = .int uint8
  have hreached : ∀ {f u}, holds f u → u ≠ .int uint8 → Reached F P t (f, u) :=
    fun h hu => h.resolve_right hu
  refine ⟨⟨holds, rank, bound, ?_, ?_, ?_, ?_, ?_, ?_, ?_, ?_, ?_, ?_, ?_⟩, .inl .refl⟩
  · rintro f u (h | rfl)
    · exact hbound _ h
    · exact Nat.zero_le _
  · exact fun h => .inl ((hreached h (by simp)).tail .optional)
  · exact fun h => .inl ((hreached h (by simp)).tail .map)
  · exact fun h u hu => .inl ((hreached h (by simp)).tail (.tuple hu))
  · intro f n u h
    by_cases hisBytes : F.traits.isBytes f (.array n u) = true
    · exact .inr (hbytes.1 f n u hisBytes)
    · exact .inl ((hreached h (by simp)).tail (.array (Bool.eq_false_of_not_eq_true hisBytes)))
  · intro f kind u h
    by_cases hisBytes : F.traits.isBytes f (.seq kind u) = true
    · exact .inr (hbytes.2 f kind u hisBytes)
    · exact .inl ((hreached h (by simp)).tail (.seq (Bool.eq_false_of_not_eq_true hisBytes)))
  · exact fun h fd hfd => .inl (reached_member henv hall hdecodes (hreached h (by simp)) fd hfd)
  · exact fun h => htransparent _ _ _ _ (hreached h (by simp))
  · exact fun h a ha => .inl ((hreached h (by simp)).tail (.alternative ha))
  · intro f alts h
    have htag : f.tagKey ≠ none := hall _ (hreached h (by simp))
    exact Option.isSome_iff_ne_none.2 htag
  · exact fun h => hall _ (hreached h (by simp))

end

theorem byteRanges_of_contiguous {F : Rules}
    (h : ∀ f t, F.traits.isBytes f t = true → (∃ r, t = .byteRange r) ∨
      contiguousOfUint8 t = true) : ByteRanges F := by
  constructor
  · intro f n t hb
    rcases h f _ hb with ⟨r, hr⟩ | hcontiguous
    · cases hr
    · cases t with
      | int k => exact congrArg Ty.int (of_decide_eq_true hcontiguous)
      | _ => cases hcontiguous
  · intro f kind t hb
    rcases h f _ hb with ⟨r, hr⟩ | hcontiguous
    · cases hr
    · cases kind with
      | vector =>
        cases t with
        | int k => exact congrArg Ty.int (of_decide_eq_true hcontiguous)
        | _ => cases hcontiguous
      | list => cases hcontiguous
      | set => cases hcontiguous

theorem Json.byteRanges : ByteRanges Json.rules := by
  refine byteRanges_of_contiguous fun f t h => ?_
  have hbytes : Json.isBytes f t = true := h
  unfold Json.isBytes at hbytes
  split at hbytes
  · exact .inl ⟨_, rfl⟩
  · exact .inr (Bool.and_eq_true_iff.1 hbytes).1

theorem Cbor.byteRanges : ByteRanges Cbor.rules := by
  refine byteRanges_of_contiguous fun f t h => ?_
  have hbytes : Cbor.isBytes f t = true := h
  unfold Cbor.isBytes at hbytes
  split at hbytes
  · exact .inl ⟨_, rfl⟩
  · exact .inr (Bool.and_eq_true_iff.1 hbytes).1

/-- The audit accepts a type. -/
def Accepts (F : Rules) (P : Types) (dir : Direction) (t : Ty) : Prop :=
  ∃ n r, audit F P n dir t = some r ∧ r.ok = true

theorem Accepts.acceptable
    {F : Rules} {P : Types} {dir : Direction} {t : Ty} (h : Accepts F P dir t) {y : Node}
    (hy : ReflTransGen (Part F P dir) (noField, t) y) : Acceptable F P dir y := by
  obtain ⟨n, r, haudit, hok⟩ := h
  exact acceptable_of_ok haudit hok hy

/-- If the decode audit accepts a type in a program all of whose members are decoded and none of
whose types contains nothing but itself, then from every input `decode_all` comes to an end with a
value and a list of errors. -/
theorem decodeAll_ends_of_accepts {P : Types} {env : Env} {t : Ty} (henv : Modelled P env) :
    (Accepts Json.rules P .decode t → Grounded env (Reached Json.rules P t) →
      DecodesAll env (Reached Json.rules P t) →
      ∀ (o : Json.Options) (cc : Json.Charconv) (inp : Bytes), inp.length < 2 ^ 48 →
        ∃ m, ∀ fuel ≥ m, ∃ c, Json.decodeAll env o cc fuel t inp = .ok c) ∧
    (Accepts Cbor.rules P .decode t → Grounded env (Reached Cbor.rules P t) →
      DecodesAll env (Reached Cbor.rules P t) →
      ∀ (o : Cbor.Options) (inp : Bytes), inp.length < 2 ^ 48 →
        ∃ m, ∀ fuel ≥ m, ∃ c, Cbor.decodeAll env o fuel t inp = .ok c) := by
  constructor
  · intro haccepts hground hdecodes o cc inp hsize
    obtain ⟨U, ht⟩ := supported_of_acceptable Json.byteRanges henv hground hdecodes fun _ hy =>
      haccepts.acceptable hy
    exact ⟨_, fun fuel hfuel => Json.decodeAll_returns U ht hsize hfuel⟩
  · intro haccepts hground hdecodes o inp hsize
    obtain ⟨U, ht⟩ := supported_of_acceptable Cbor.byteRanges henv hground hdecodes fun _ hy =>
      haccepts.acceptable hy
    exact ⟨_, fun fuel hfuel => Cbor.decodeAll_returns U ht hsize hfuel⟩

theorem modelled_shapes : Modelled shapes shapesEnv := by
  intro id d hd
  show (structDef (shapes.classes id)).getD _ = d
  rw [hd]
  rfl

theorem grounded_disc {F : Rules} : Grounded shapesEnv (Reached F shapes (.struct 2)) := by
  refine ⟨fun _ => 0, 0, fun x hx => ?_, fun f id fd fs hx htransparent => ?_⟩
  · obtain ⟨f, t⟩ := x
    rcases reached_disc hx with hself | hplain
    · cases hself
      exact Nat.le_refl 0
    · cases t with
      | optional t => cases hplain
      | _ => exact Nat.le_refl 0
  · rcases reached_disc hx with hself | hplain
    · cases hself
      rw [disc_runs.2.1] at htransparent
      cases htransparent
    · cases hplain

theorem decodesAll_disc {F : Rules} : DecodesAll shapesEnv (Reached F shapes (.struct 2)) := by
  intro f id hx fd hfd
  rcases reached_disc hx with hself | hplain
  · cases hself
    have hskip := List.all_eq_true.1 disc_runs.2.2.1 fd hfd
    rw [Bool.not_eq_true'] at hskip
    exact hskip
  · cases hplain

/-- `{"x":1,"y":2,"r":[]}`, in both formats. -/
theorem decodeAll_ends_of_accepts_disc :
    (∃ m, ∀ fuel ≥ m, ∃ c,
      Json.decodeAll shapesEnv {} ⟨fun _ => none, fun _ => []⟩ fuel (.struct 2)
      (str "\x7b\"x\":1,\"y\":2,\"r\":[]\x7d") = .ok c) ∧
      ∃ m, ∀ fuel ≥ m, ∃ c,
        Cbor.decodeAll shapesEnv {} fuel (.struct 2)
        [0xA3, 0x61, 0x78, 0x01, 0x61, 0x79, 0x02, 0x61, 0x72, 0x80] = .ok c := by
  have haccepts : ∀ F : Rules, (audit F shapes 3 .decode (.struct 2)).any (·.ok) = true →
    Accepts F shapes .decode (.struct 2) := by
    intro F hrun
    obtain ⟨r, hr, hok⟩ := (Option.any_eq_true _ _).1 hrun
    exact ⟨3, r, hr, hok⟩
  obtain ⟨-, -, -, hjson, hcbor, -, -⟩ := disc_runs
  constructor
  · exact (decodeAll_ends_of_accepts modelled_shapes).1 (haccepts _ hjson) grounded_disc
      decodesAll_disc _ _ _ (by decide)
  · exact (decodeAll_ends_of_accepts modelled_shapes).2 (haccepts _ hcbor) grounded_disc
      decodesAll_disc _ _ (by decide)

end VCodec
