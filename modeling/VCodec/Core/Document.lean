import VCodec.Core.Traverse
import Mathlib.Data.List.Forall2

/-!
# Documents

What a value becomes, before a sink writes it: the tree of the sink calls that traversal makes. A
value that traversal takes no exception to has a document, and its encoding is the writing of that
document.
-/

namespace VCodec

/-- A key, as it is given to a sink. A name is encoded at compile time. -/
inductive DocKey
  | text (k : Bytes)
  | uint (n : Nat)
  | sint (i : Int)
  | name (k : Bytes)
  | intName (i : Int)
  deriving DecidableEq

/-- A value, as it is given to a sink. -/
inductive Doc
  | null
  | boolean (b : Bool)
  | uint (f : FieldMeta) (n : Nat)
  | sint (f : FieldMeta) (i : Int)
  | real (f : FieldMeta) (x : Double)
  | text (f : FieldMeta) (t : Bytes)
  | bytes (f : FieldMeta) (b : Bytes)
  | range (t : Ty) (v : Val)
  | tag (n : Nat) (d : Doc)
  | array (f : FieldMeta) (n : Option Nat) (ds : List Doc)
  | map (f : FieldMeta) (n : Option Nat) (es : List (DocKey × Doc))
  /-- The entries are in the format's order. -/
  | members (n : Nat) (es : List (DocKey × Doc))

/-! ### Writing -/

section

variable {ω : Type} (s : Sink ω)

def DocKey.emit : DocKey → EStateM EncodeError ω Unit
  | .text k => s.key k
  | .uint n => s.keyUint n
  | .sint i => s.keySint i
  | .name k => s.preparedKey k
  | .intName i => s.preparedIntKey i

mutual

def Doc.emit : Doc → EStateM EncodeError ω Unit
  | .null => s.null
  | .boolean b => s.boolean b
  | .uint f n => s.uint f n
  | .sint f i => s.sint f i
  | .real f x => s.real f x
  | .text f t => s.text f t
  | .bytes f b => s.bytes f b
  | .range t v => s.writeRange t v
  | .tag n d => do
    s.tag n
    d.emit
  | .array f n ds => do
    s.beginArray f n
    Doc.emitAll ds
    s.endArray
  | .map f n es => do
    s.beginMap f n
    Doc.emitEntries es
    s.endMap
  | .members n es => do
    s.beginMapOrdered (some n)
    Doc.emitEntries es
    s.endMap

def Doc.emitAll : List Doc → EStateM EncodeError ω Unit
  | [] => return
  | d :: ds => do
    d.emit
    Doc.emitAll ds

def Doc.emitEntries : List (DocKey × Doc) → EStateM EncodeError ω Unit
  | [] => return
  | (k, d) :: es => do
    k.emit s
    d.emit
    Doc.emitEntries es

end

end

/-! ### The document of a value -/

section

variable (env : Env) (tr : Traits) (order : StructDef → List Nat)

def lowerEnum (f : FieldMeta) (e : EnumDef) (i : Int) : Option Doc :=
  if tr.enumAsInteger f e then
    match e.enumerators.find? (fun en => en.value = i ∧ en.skipped) with
    | some _ => none
    | none => some (if e.underlying.signed then .sint f i else .uint f i.toNat)
  else
    match e.enumerators.find? (fun en => en.value = i) with
    | some en => if en.skipped then none else some (.text noField en.name)
    | none => none

/-- A member's value, with its tags or in bulk form; `d` is the plain document. -/
def lowerFieldValue (f : FieldMeta) (d : Option Doc) : Ty → Val → Option Doc
  | .optional t, .some v => lowerFieldValue f d t v
  | .optional _, _ => some .null
  | t, v =>
    (if tr.bulkRange f t then some (.range t v) else d).map ((tr.expectedTags env f t).foldr .tag)

/-- A member of an object, with its value and the plain document of the value. -/
structure DocMember where
  field : Field
  value : Val
  doc : Option Doc

def DocMember.emitted (m : DocMember) : Bool :=
  ¬ m.field.skipSerializing ∧ ¬ m.field.omits env m.value

def keyOf (d : StructDef) (f : Field) : DocKey :=
  match tr.integerKey d f with
  | some k => .intName k
  | none => .name f.wireName

/-- The entry of a member. -/
def DocMember.entry (d : StructDef) (m : DocMember) : Option (DocKey × Doc) :=
  (lowerFieldValue env tr m.field.info m.doc m.field.ty m.value).map fun x =>
    (keyOf tr d m.field, x)

/-- The members that are written, in the format's order. -/
def written (d : StructDef) (ms : List DocMember) : List DocMember :=
  (order d).filterMap fun i => ms[i]?.filter (DocMember.emitted env)

def lowerStruct (d : StructDef) (tagKey tagValue : Bytes) (ms : List DocMember) : Option Doc :=
  if d.transparent then
    match ms with
    | [m] => m.doc
    | _ => none
  else do
    let n := (ms.filter (DocMember.emitted env)).length + if tagKey = [] then 0 else 1
    let es ← ((written env order d ms).map (DocMember.entry env tr d)).mapM id
    if tagKey = [] then return .members n es
    else return .map noField (some n) ((.text tagKey, .text noField tagValue) :: es)

def lowerKey (kt : KeyTy) (k : Key) : Option DocKey :=
  match kt, k with
  | .text _, .text k => some (.text k)
  | .int k, .int i => some (if k.signed then .sint i else .uint i.toNat)
  | _, _ => none

def lowerTime (f : FieldMeta) (d : Duration) (v : Val) : Doc :=
  if 0 ∈ f.tags then .text noField (env.formatTime d v)
  else if d.den ≤ d.num ∧ d.integral then .sint noField (env.secondsOfTime d v)
  else
    match wholeSeconds (env.realOfTime d v) with
    | some i => .sint noField i
    | none => .real noField (env.realOfTime d v)

mutual

def lower (f : FieldMeta) : Ty → Val → Option Doc
  | .time d, .int i => if tr.timeCodec then some (lowerTime env f d (.int i)) else none
  | .time d, .real x => if tr.timeCodec then some (lowerTime env f d (.real x)) else none
  | .bool, .bool b => some (.boolean b)
  | .char, .char c => some (.text noField [c])
  | .int k, .int i => some (if k.signed then .sint f i else .uint f i.toNat)
  | .float, .single x => some (.real f (doubleOfSingle x))
  | .double, .real x => some (.real f x)
  | .enum e, .int i => lowerEnum tr f e i
  | .string _, .text t => some (.text f t)
  | .optional t, .some v => lower f t v
  | .optional _, .null => some .null
  | .variant alts, .variant i v =>
    match alts[i]? with
    | none => none
    | some (name, t) =>
      match internallyTagged env t, v with
      | some d, .seq vs =>
        lowerStruct env tr order d (f.tagKey.getD []) name (lowerFields d.fields vs)
      | some _, _ => none
      | none, v => (lower noField t v).map fun d =>
          .map noField (some 2)
            [(.text (f.tagKey.getD []), .text noField name), (.name variantValueKey, d)]
  | .byteRange _, .bytes b => some (.bytes f b)
  | .map kind kt t, .map es =>
    ((lowerEntries f kt t es).mapM id).map (.map f (sizeOf? env (.map kind kt t) es.length))
  | .tuple ts, .seq vs =>
    ((lowerEach f ts vs).mapM id).map fun ds => .array noField (some ds.length) ds
  | .array n t, .seq vs =>
    if tr.isBytes f (.array n t) then some (.bytes f (asBytes (.seq vs)))
    else ((lowerAll f t vs).mapM id).map (.array f (sizeOf? env (.array n t) vs.length))
  | .seq kind t, .seq vs =>
    if tr.isBytes f (.seq kind t) then some (.bytes f (asBytes (.seq vs)))
    else ((lowerAll f t vs).mapM id).map (.array f (sizeOf? env (.seq kind t) vs.length))
  | .struct id, .seq vs =>
    lowerStruct env tr order (env.structs id) [] [] (lowerFields (env.structs id).fields vs)
  | _, _ => none

def lowerAll (f : FieldMeta) (t : Ty) : List Val → List (Option Doc)
  | [] => []
  | v :: vs => lower f t v :: lowerAll f t vs

def lowerEach (f : FieldMeta) : List Ty → List Val → List (Option Doc)
  | t :: ts, v :: vs => lower f t v :: lowerEach f ts vs
  | _, _ => []

def lowerFields : List Field → List Val → List DocMember
  | f :: fs, v :: vs => ⟨f, v, lower f.info f.ty v⟩ :: lowerFields fs vs
  | _, _ => []

def lowerEntries (f : FieldMeta) (kt : KeyTy) (t : Ty) :
    List (Key × Val) → List (Option (DocKey × Doc))
  | [] => []
  | (k, v) :: es =>
    ((lowerKey kt k).bind fun k => (lower f t v).map fun d => (k, d)) :: lowerEntries f kt t es

end

/-- The document of a top-level value. -/
def lowerTop (t : Ty) (v : Val) : Option Doc :=
  lowerFieldValue env tr noField (lower env tr order noField t v) t v

end

/-! ### The encoding of a value is the writing of its document -/

section

variable {ω : Type}

/-- The same outcome, up to the path and the text of an exception. -/
def SameRun : EStateM.Result EncodeError ω Unit → EStateM.Result EncodeError ω Unit → Prop
  | .ok _ w, .ok _ w' => w = w'
  | .error e w, .error e' w' => e.code = e'.code ∧ w = w'
  | _, _ => False

/-- The first run is the second one, or throws by itself where there is none. -/
def Renders (m : EStateM EncodeError ω Unit) : Option (EStateM EncodeError ω Unit) → Prop
  | none => ∀ w, ∃ e w', m w = .error e w'
  | some n => ∀ w, SameRun (m w) (n w)

theorem SameRun.refl (r : EStateM.Result EncodeError ω Unit) : SameRun r r := by
  cases r with
  | ok a w => exact rfl
  | error e w => exact ⟨rfl, rfl⟩

namespace Renders

variable {m n : EStateM EncodeError ω Unit} {x y : Option (EStateM EncodeError ω Unit)}

theorem refl (m : EStateM EncodeError ω Unit) : Renders m (some m) := fun w => .refl (m w)

theorem throw (e : EncodeError) : Renders (throw e : EStateM EncodeError ω Unit) none :=
  fun w => ⟨e, w, rfl⟩

theorem inPath {step : EncodeError → EncodeError} (hstep : ∀ e, (step e).code = e.code)
    (h : Renders m x) :
    Renders (inPath step m) x := by
  cases x with
  | none =>
    intro w
    obtain ⟨e, w', hm⟩ := h w
    refine ⟨step e, w', ?_⟩
    unfold VCodec.inPath Run.mapError
    rw [hm]
  | some n =>
    intro w
    have h := h w
    unfold VCodec.inPath Run.mapError
    cases hm : m w with
    | ok a w₁ => rwa [hm] at h
    | error e w₁ =>
      rw [hm] at h
      cases hn : n w with
      | ok a' w' =>
        rw [hn] at h
        exact h.elim
      | error e' w' =>
        rw [hn] at h
        exact ⟨(hstep e).trans h.1, h.2⟩

theorem seq_none (h : Renders m none) (n : EStateM EncodeError ω Unit) :
    Renders (do m; n) none := by
  intro w
  obtain ⟨e, w', hm⟩ := h w
  exact ⟨e, w', Run.bind_of_error hm _⟩

theorem seq_some {a : EStateM EncodeError ω Unit} (hm : Renders m (some a)) (hn : Renders n y) :
    Renders (do m; n) (y.map fun b => do a; b) := by
  have hfail : ∀ {w e w₁}, m w = .error e w₁ → ∃ e', a w = .error e' w₁ ∧ e.code = e'.code := by
    intro w e w₁ hmw
    have h := hm w
    rw [hmw] at h
    cases haw : a w with
    | ok u w' =>
      rw [haw] at h
      exact h.elim
    | error e' w' =>
      rw [haw] at h
      obtain ⟨hcode, rfl⟩ := h
      exact ⟨e', rfl, hcode⟩
  have hgood : ∀ {w w₁}, m w = .ok () w₁ → a w = .ok () w₁ := by
    intro w w₁ hmw
    have h := hm w
    rw [hmw] at h
    cases haw : a w with
    | ok u w' =>
      rw [haw] at h
      rw [show w₁ = w' from h]
    | error e' w' =>
      rw [haw] at h
      exact h.elim
  cases y with
  | none =>
    intro w
    cases hmw : m w with
    | error e w₁ => exact ⟨e, w₁, Run.bind_of_error hmw _⟩
    | ok u w₁ =>
      obtain ⟨e, w', hnw⟩ := hn w₁
      exact ⟨e, w', (Run.bind_of_ok hmw _).trans hnw⟩
  | some b =>
    intro w
    show SameRun ((m >>= fun _ => n) w) ((a >>= fun _ => b) w)
    cases hmw : m w with
    | error e w₁ =>
      obtain ⟨e', haw, hcode⟩ := hfail hmw
      rw [Run.bind_of_error hmw, Run.bind_of_error haw]
      exact ⟨hcode, rfl⟩
    | ok u w₁ =>
      rw [Run.bind_of_ok hmw, Run.bind_of_ok (hgood hmw)]
      exact hn w₁

/-- One run after the other. -/
theorem seq (hm : Renders m x) (hn : Renders n y) :
    Renders (do m; n) (x.bind fun a => y.map fun b => do a; b) := by
  cases x with
  | none => exact hm.seq_none n
  | some a => exact hm.seq_some hn

/-- A call before what is rendered. -/
theorem after (c : EStateM EncodeError ω Unit) (h : Renders m x) :
    Renders (do c; m) (x.map fun a => do c; a) :=
  (refl c).seq_some h

/-- A call behind what is rendered. -/
theorem before (h : Renders m x) (c : EStateM EncodeError ω Unit) :
    Renders (do m; c) (x.map fun a => do a; c) := by
  have hseq := h.seq (refl c)
  cases x <;> exact hseq

theorem congr (h : Renders m x) (hxy : x = y) : Renders m y := hxy ▸ h

end Renders

variable {env : Env} {s : Sink ω}

open Renders

theorem renders_encodeEnum (f : FieldMeta) (e : EnumDef) (i : Int) :
    Renders (encodeEnum s f e i) ((lowerEnum s.traits f e i).map (Doc.emit s)) := by
  unfold encodeEnum lowerEnum
  split
  · cases e.enumerators.find? (fun en => en.value = i ∧ en.skipped) with
    | some en => exact .throw _
    | none =>
      simp only
      split <;> exact refl _
  · cases e.enumerators.find? (fun en => en.value = i) with
    | some en =>
      simp only
      split
      · exact .throw _
      · exact refl _
    | none => exact .throw _

theorem renders_tags (ts : List Nat) {m : EStateM EncodeError ω Unit} {x : Option Doc}
    (h : Renders m (x.map (Doc.emit s))) :
    Renders (do ts.forM s.tag; m) ((x.map (ts.foldr .tag)).map (Doc.emit s)) := by
  induction ts with
  | nil => cases x <;> exact h
  | cons t ts ih =>
    have hseq : (do (t :: ts).forM s.tag; m) = (do s.tag t; ts.forM s.tag; m) := by
      rw [List.forM_eq_forM, List.forM_cons, bind_assoc]
    rw [hseq]
    refine (ih.after (s.tag t)).congr ?_
    cases x <;> rfl

theorem renders_encodeFieldValue (f : FieldMeta) {enc : EStateM EncodeError ω Unit} {d : Option Doc}
    (h : Renders enc (d.map (Doc.emit s))) (t : Ty) (v : Val) :
    Renders (encodeFieldValue env s f enc t v)
      ((lowerFieldValue env s.traits f d t v).map (Doc.emit s)) := by
  fun_induction lowerFieldValue env s.traits f d t v with
  | case1 t v ih => exact ih
  | case2 t v hv =>
    cases v <;> first | exact refl _ | exact absurd rfl (hv _)
  | case3 t v h1 h2 =>
    have hplain : Renders (if s.traits.bulkRange f t then s.writeRange t v else enc)
        ((if s.traits.bulkRange f t then some (Doc.range t v) else d).map (Doc.emit s)) := by
      split
      · exact refl _
      · exact h
    rw [encodeFieldValue.eq_3 _ _ _ _ _ _ h2 h1]
    exact renders_tags _ hplain

/-- The parts, one by one. -/
abbrev RendersAll (s : Sink ω) (ms : List (EStateM EncodeError ω Unit)) (ds : List (Option Doc)) :
    Prop :=
  List.Forall₂ (fun m d => Renders m (d.map (Doc.emit s))) ms ds

theorem mapM_id_cons {α : Type} (x : Option α) (xs : List (Option α)) :
    (x :: xs).mapM id = x.bind fun a => (xs.mapM id).map fun as => a :: as := by
  rw [List.mapM_cons]
  cases x with
  | none => rfl
  | some a => cases xs.mapM id <;> rfl

/-- All there, in order. -/
theorem mapM_id_eq_some {α : Type} {xs : List (Option α)} {as : List α} :
    xs.mapM id = some as ↔ xs = as.map some := by
  induction xs generalizing as with
  | nil =>
    rw [List.mapM_nil]
    exact ⟨fun h => by cases h; rfl, fun h => by rw [List.map_eq_nil_iff.1 h.symm]; rfl⟩
  | cons x xs ih =>
    rw [mapM_id_cons, Option.bind_eq_some_iff]
    constructor
    · rintro ⟨a, rfl, h⟩
      obtain ⟨as, has, rfl⟩ := Option.map_eq_some_iff.1 h
      rw [ih.1 has, List.map_cons]
    · intro h
      cases as with
      | nil => cases h
      | cons a as =>
        obtain ⟨rfl, hxs⟩ := List.cons.inj h
        exact ⟨a, rfl, by rw [ih.2 hxs]; rfl⟩

theorem renders_encodeElements {ms : List (EStateM EncodeError ω Unit)} {ds : List (Option Doc)}
    (h : RendersAll s ms ds) (i : Nat) :
    Renders (encodeElements i ms) ((ds.mapM id).map (Doc.emitAll s)) := by
  induction h generalizing i with
  | nil => exact refl _
  | @cons m d ms ds h _ ih =>
    refine ((h.inPath fun e => e.pushIndex_code i).seq (ih (i + 1))).congr ?_
    rw [mapM_id_cons]
    cases d with
    | none => rfl
    | some d => cases ds.mapM id <;> rfl

theorem RendersAll.length {ms : List (EStateM EncodeError ω Unit)} {ds : List (Option Doc)}
    (h : RendersAll s ms ds) :
    ms.length = ds.length := h.length_eq

theorem length_mapM_id {α : Type} {xs : List (Option α)} {as : List α} (h : xs.mapM id = some as) :
    as.length = xs.length := by
  rw [mapM_id_eq_some.1 h, List.length_map]

variable (env) in
theorem renders_encodeSequence (f : FieldMeta) (t : Ty) {ms : List (EStateM EncodeError ω Unit)}
    {ds : List (Option Doc)} (h : RendersAll s ms ds) :
    Renders (encodeSequence env s f t ms)
      (((ds.mapM id).map (.array f (sizeOf? env t ms.length))).map (Doc.emit s)) := by
  refine (((renders_encodeElements h 0).before s.endArray).after
    (s.beginArray f (sizeOf? env t ms.length))).congr ?_
  cases ds.mapM id <;> rfl

theorem renders_encodeTuple {ms : List (EStateM EncodeError ω Unit)} {ds : List (Option Doc)}
    (h : RendersAll s ms ds) :
    Renders (encodeTuple s ms)
      (((ds.mapM id).map fun ds => .array noField (some ds.length) ds).map (Doc.emit s)) := by
  refine (((renders_encodeElements h 0).before s.endArray).after
    (s.beginArray noField (some ms.length))).congr ?_
  cases hds : ds.mapM id with
  | none => rfl
  | some as =>
    rw [h.length, ← length_mapM_id hds]
    rfl

/-! ### Maps -/

theorem renders_encodeKey (kt : KeyTy) (k : Key) :
    Renders (encodeKey s kt k) ((lowerKey kt k).map (DocKey.emit s)) := by
  cases kt with
  | text view =>
    cases k with
    | text k => exact refl _
    | int i => exact .throw _
  | int kt =>
    cases k with
    | text k => exact .throw _
    | int i =>
      unfold encodeKey lowerKey
      simp only
      split <;> exact refl _

theorem Key.pushEncode_code (k : Key) (e : EncodeError) : (k.pushEncode e).code = e.code := by
  cases k <;> exact e.push_code _

/-- An entry, and its document. -/
def RendersEntry (s : Sink ω) (kt : KeyTy) (e : Key × EStateM EncodeError ω Unit)
    (d : Option (DocKey × Doc)) : Prop :=
  ∃ x : Option Doc, Renders e.2 (x.map (Doc.emit s)) ∧
    d = (lowerKey kt e.1).bind fun k => x.map fun d => (k, d)

theorem renders_entries {kt : KeyTy} {es : List (Key × EStateM EncodeError ω Unit)}
    {ds : List (Option (DocKey × Doc))} (h : List.Forall₂ (RendersEntry s kt) es ds) :
    Renders (es.forM fun (k, enc) => do
        encodeKey s kt k
        inPath k.pushEncode enc) ((ds.mapM id).map (Doc.emitEntries s)) := by
  induction h with
  | nil => exact refl _
  | @cons e d es ds h _ ih =>
    obtain ⟨x, hx, rfl⟩ := h
    refine (((renders_encodeKey kt e.1).seq (hx.inPath e.1.pushEncode_code)).seq ih).congr ?_
    rw [mapM_id_cons]
    cases lowerKey kt e.1 with
    | none => rfl
    | some k =>
      cases x with
      | none => rfl
      | some d =>
        cases ds.mapM id with
        | none => rfl
        | some ds => exact congrArg some (bind_assoc _ _ _)

variable (env) in
theorem renders_encodeMap
    (f : FieldMeta) (t : Ty) {kt : KeyTy} {es : List (Key × EStateM EncodeError ω Unit)}
    {ds : List (Option (DocKey × Doc))} (h : List.Forall₂ (RendersEntry s kt) es ds) :
    Renders (encodeMap env s f t kt es)
      (((ds.mapM id).map (.map f (sizeOf? env t es.length))).map (Doc.emit s)) := by
  refine (((renders_entries h).before s.endMap).after
    (s.beginMap f (sizeOf? env t es.length))).congr ?_
  cases ds.mapM id <;> rfl

/-! ### Structs -/

/-- A member, and its document. -/
structure RendersMember (s : Sink ω) (m : Member ω) (d : DocMember) : Prop where
  field : m.field = d.field
  value : m.value = d.value
  plain : Renders m.enc (d.doc.map (Doc.emit s))

theorem RendersMember.emitted {m : Member ω} {d : DocMember} (h : RendersMember s m d) :
    m.emitted env = d.emitted env := by
  unfold Member.emitted DocMember.emitted
  rw [h.field, h.value]

theorem renders_encodeMember
    (d : StructDef) {m : Member ω} {x : DocMember} (h : RendersMember s m x)
    (hemit : x.emitted env = true) :
    Renders (encodeMember env s d m)
      ((x.entry env s.traits d).map fun e => do e.1.emit s; e.2.emit s) := by
  unfold encodeMember
  rw [if_pos (h.emitted.trans hemit), h.field, h.value]
  have hkey : emitKey s d x.field = (keyOf s.traits d x.field).emit s := by
    unfold emitKey keyOf
    cases s.traits.integerKey d x.field <;> rfl
  rw [hkey]
  refine (((renders_encodeFieldValue x.field.info h.plain x.field.ty x.value).inPath fun e =>
    e.pushMember_code _).after _).congr ?_
  unfold DocMember.entry
  cases lowerFieldValue env s.traits x.field.info x.doc x.field.ty x.value <;> rfl

variable (env) in
theorem renders_encodeMembers (d : StructDef) {ms : List (Member ω)} {xs : List DocMember}
    (h : List.Forall₂ (RendersMember s) ms xs) (is : List Nat) :
    Renders (is.forM fun i => match ms[i]? with
        | some m => encodeMember env s d m
        | none => return)
      ((((is.filterMap fun i => xs[i]?.filter (DocMember.emitted env)).map
        (DocMember.entry env s.traits d)).mapM id).map
        (Doc.emitEntries s)) := by
  induction is with
  | nil => exact refl _
  | cons i is ih =>
    have hskip : ∀ m : EStateM EncodeError ω Unit, m = pure () →
      xs[i]?.filter (DocMember.emitted env) = none →
        Renders (do m; is.forM fun i => match ms[i]? with
            | some m => encodeMember env s d m
            | none => return)
          (((((i :: is).filterMap fun i => xs[i]?.filter (DocMember.emitted env)).map
            (DocMember.entry env s.traits d)).mapM id).map (Doc.emitEntries s)) := by
      rintro m rfl hnone
      rw [List.filterMap_cons, hnone]
      exact ih
    rw [List.forM_eq_forM, List.forM_cons]
    cases hm : ms[i]? with
    | none =>
      refine hskip _ rfl ?_
      have hlen := List.getElem?_eq_none_iff.1 hm
      rw [List.getElem?_eq_none (h.length_eq ▸ hlen)]
      rfl
    | some m =>
      obtain ⟨hlt, rfl⟩ := List.getElem?_eq_some_iff.1 hm
      have hlt' : i < xs.length := h.length_eq ▸ hlt
      have hget := List.Forall₂.get h hlt hlt'
      have hx : xs[i]? = some xs[i] := List.getElem?_eq_getElem hlt'
      cases hemit : (xs[i]).emitted env with
      | false =>
        refine hskip _ ?_ ?_
        · have hm : (ms[i]).emitted env = false := hget.emitted.trans hemit
          simp only [encodeMember, hm]
          rfl
        · rw [hx, Option.filter_some, hemit]
          rfl
      | true =>
        have hsome : xs[i]?.filter (DocMember.emitted env) = some xs[i] := by
          rw [hx, Option.filter_some, hemit]; rfl
        rw [List.filterMap_cons, hsome, List.map_cons, mapM_id_cons]
        refine ((renders_encodeMember d hget hemit).seq ih).congr ?_
        cases (xs[i]).entry env s.traits d with
        | none => rfl
        | some e =>
          rw [Option.map_some, Option.bind_some, Option.bind_some, Option.map_map, Option.map_map]
          refine congrArg (fun g => Option.map g _) (funext fun es => ?_)
          exact bind_assoc _ _ _

variable (env) in
theorem filter_length {ms : List (Member ω)}
    {xs : List DocMember} (h : List.Forall₂ (RendersMember s) ms xs) :
    (ms.filter (Member.emitted env)).length = (xs.filter (DocMember.emitted env)).length := by
  induction h with
  | nil => rfl
  | @cons m x ms xs h _ ih =>
    rw [List.filter_cons, List.filter_cons, h.emitted]
    split
    · rw [List.length_cons, List.length_cons, ih]
    · exact ih

/-- Where no member is conditional, the sum over the type counts what is emitted. -/
theorem memberCount_eq {d : StructDef} {ms : List (Member ω)} (hms : ∀ m ∈ ms, m.field ∈ d.fields) :
    memberCount env d ms = (ms.filter (Member.emitted env)).length := by
  unfold memberCount serializedFieldCount
  split
  · rfl
  · rename_i hcond
    refine congrArg List.length (List.filter_congr fun m hm => ?_)
    have hmember : ¬ (m.field.skipIfNull || m.field.skipIfDefault) = true := fun h =>
      hcond (List.any_eq_true.2 ⟨m.field, hms m hm, h⟩)
    have homits : ¬ m.field.omits env m.value = true := by
      rw [Bool.or_eq_true, not_or] at hmember
      exact fun h => ((Field.omits_iff env).1 h).elim (fun h => hmember.1 h.1) fun h =>
        hmember.2 h.1
    simp [Member.emitted, homits]

theorem renders_encodeStruct (d : StructDef) (tagKey tagValue : Bytes) {ms : List (Member ω)}
    {xs : List DocMember} (hms : ∀ m ∈ ms, m.field ∈ d.fields)
    (h : List.Forall₂ (RendersMember s) ms xs) :
    Renders (encodeStruct env s d tagKey tagValue ms)
      ((lowerStruct env s.traits s.memberOrder d tagKey tagValue xs).map (Doc.emit s)) := by
  unfold encodeStruct lowerStruct
  split
  · cases h with
    | nil => exact .throw _
    | cons h hs =>
      cases hs with
      | nil => exact h.plain.inPath fun e => e.pushMember_code _
      | cons _ _ => exact .throw _
  · have hmembers := (renders_encodeMembers env d h (s.memberOrder d)).before s.endMap
    rw [← filter_length env h, ← memberCount_eq hms]
    unfold encodeMembers
    change Renders (do
        let n := memberCount env d ms + if tagKey = [] then 0 else 1
        _) _
    simp only
    split
    · refine (hmembers.after (s.beginMapOrdered (some _))).congr ?_
      change _ = Option.map (Doc.emit s) (Option.bind _ _)
      unfold written
      cases ((((s.memberOrder d).filterMap fun i => xs[i]?.filter (DocMember.emitted env)).map
        (DocMember.entry env s.traits d)).mapM id) <;> rfl
    · refine (((hmembers.after (s.text noField tagValue)).after (s.key tagKey)).after
        (s.beginMap noField (some _))).congr ?_
      change _ = Option.map (Doc.emit s) (Option.bind _ _)
      unfold written
      cases ((((s.memberOrder d).filterMap fun i => xs[i]?.filter (DocMember.emitted env)).map
        (DocMember.entry env s.traits d)).mapM id) with
      | none => rfl
      | some es =>
        refine congrArg some ?_
        simp only [Doc.emit, Doc.emitEntries, DocKey.emit, bind_assoc]

theorem renders_encodeExternal
    (tagKey name : Bytes) {m : EStateM EncodeError ω Unit} {x : Option Doc}
    (h : Renders m (x.map (Doc.emit s))) :
    Renders (encodeExternal s tagKey name m)
      ((x.map fun d => .map noField (some 2)
        [(.text tagKey, .text noField name), (.name variantValueKey, d)]).map (Doc.emit s)) := by
  have hvalue := (h.inPath fun e => e.pushMember_code variantValueKey).before s.endMap
  refine ((((hvalue.after (s.preparedKey variantValueKey)).after (s.text noField name)).after
    (s.key tagKey)).after
    (s.beginMap noField (some 2))).congr ?_
  cases x with
  | none => rfl
  | some d =>
    refine congrArg some ?_
    simp only [Doc.emit, Doc.emitEntries, DocKey.emit, bind_assoc, pure_bind]

theorem renders_encodeTime (f : FieldMeta) (d : Duration) (v : Val) :
    Renders (encodeTime env s f d v) (some ((lowerTime env f d v).emit s)) := by
  unfold encodeTime lowerTime
  split
  · exact refl _
  · split
    · exact refl _
    · cases wholeSeconds (env.realOfTime d v) <;> exact refl _

/-! ### Values -/

theorem length_encodeAll (f : FieldMeta) (t : Ty) (vs : List Val) :
    (encodeAll env s f t vs).length = vs.length := by
  induction vs with
  | nil => rfl
  | cons v vs ih => rw [encodeAll, List.length_cons, List.length_cons, ih]

theorem length_encodeEntries (f : FieldMeta) (t : Ty) (es : List (Key × Val)) :
    (encodeEntries env s f t es).length = es.length := by
  induction es with
  | nil => rfl
  | cons e es ih =>
    obtain ⟨k, v⟩ := e
    rw [encodeEntries, List.length_cons, List.length_cons, ih]

theorem field_of_mem_encodeFields
    {fs : List Field} {vs : List Val} {m : Member ω} (h : m ∈ encodeFields env s fs vs) :
    m.field ∈ fs := by
  induction fs generalizing vs with
  | nil =>
    rw [encodeFields] at h
    · cases h
    · exact fun _ _ _ _ hf => nomatch hf
  | cons f fs ih =>
    cases vs with
    | nil =>
      rw [encodeFields] at h
      · cases h
      · exact fun _ _ _ _ _ hv => nomatch hv
    | cons v vs =>
      rw [encodeFields] at h
      rcases List.mem_cons.1 h with rfl | h
      · exact List.mem_cons_self
      · exact List.mem_cons_of_mem _ (ih h)

mutual

/-- The encoding of a value writes its document, or throws if it has none. -/
theorem renders_encodeValue (f : FieldMeta) (t : Ty) (v : Val) :
    Renders (encodeValue env s f t v)
      ((lower env s.traits s.memberOrder f t v).map (Doc.emit s)) := by
  cases t with
  | bool => cases v <;> first | exact refl _ | exact .throw _
  | char => cases v <;> first | exact refl _ | exact .throw _
  | float => cases v <;> first | exact refl _ | exact .throw _
  | double => cases v <;> first | exact refl _ | exact .throw _
  | string view => cases v <;> first | exact refl _ | exact .throw _
  | byteRange r => cases v <;> first | exact refl _ | exact .throw _
  | time d =>
    cases v with
    | int i =>
      rw [encodeValue, lower]
      split
      · exact renders_encodeTime f d _
      · exact .throw _
    | real x =>
      rw [encodeValue, lower]
      split
      · exact renders_encodeTime f d _
      · exact .throw _
    | _ => exact .throw _
  | int k =>
    cases v with
    | int i =>
      rw [encodeValue, lower]
      split <;> exact refl _
    | _ => exact .throw _
  | enum e =>
    cases v with
    | int i => exact renders_encodeEnum f e i
    | _ => exact .throw _
  | optional t =>
    cases v with
    | some v => exact renders_encodeValue f t v
    | null => exact refl _
    | _ => exact .throw _
  | variant alts =>
    cases v with
    | variant i v =>
      rw [encodeValue, lower]
      cases alts[i]? with
      | none => exact .throw _
      | some alt =>
        obtain ⟨name, t⟩ := alt
        simp only
        cases internallyTagged env t with
        | some d =>
          cases v with
          | seq vs =>
            exact renders_encodeStruct d _ _ (fun _ => field_of_mem_encodeFields)
              (renders_encodeFields d.fields vs)
          | _ => exact .throw _
        | none => exact renders_encodeExternal _ name (renders_encodeValue noField t v)
    | _ => exact .throw _
  | map kind kt t =>
    cases v with
    | map es =>
      have h := renders_encodeMap env f (.map kind kt t) (renders_encodeEntries f kt t es)
      rw [length_encodeEntries] at h
      exact h
    | _ => exact .throw _
  | tuple ts =>
    cases v with
    | seq vs => exact renders_encodeTuple (renders_encodeEach f ts vs)
    | _ => exact .throw _
  | array n t =>
    cases v with
    | seq vs =>
      rw [encodeValue, lower]
      split
      · exact refl _
      · have h := renders_encodeSequence env f (.array n t) (renders_encodeAll f t vs)
        rw [length_encodeAll] at h
        exact h
    | _ => exact .throw _
  | seq kind t =>
    cases v with
    | seq vs =>
      rw [encodeValue, lower]
      split
      · exact refl _
      · have h := renders_encodeSequence env f (.seq kind t) (renders_encodeAll f t vs)
        rw [length_encodeAll] at h
        exact h
    | _ => exact .throw _
  | struct id =>
    cases v with
    | seq vs =>
      exact renders_encodeStruct _ _ _ (fun _ => field_of_mem_encodeFields)
        (renders_encodeFields _ vs)
    | _ => exact .throw _

theorem renders_encodeAll (f : FieldMeta) (t : Ty) (vs : List Val) :
    RendersAll s (encodeAll env s f t vs) (lowerAll env s.traits s.memberOrder f t vs) := by
  match vs with
  | [] => exact .nil
  | v :: vs => exact .cons (renders_encodeValue f t v) (renders_encodeAll f t vs)

theorem renders_encodeEach (f : FieldMeta) (ts : List Ty) (vs : List Val) :
    RendersAll s (encodeEach env s f ts vs) (lowerEach env s.traits s.memberOrder f ts vs) := by
  match ts, vs with
  | t :: ts, v :: vs => exact .cons (renders_encodeValue f t v) (renders_encodeEach f ts vs)
  | [], [] | [], _ :: _ | _ :: _, [] => exact .nil

theorem renders_encodeFields (fs : List Field) (vs : List Val) :
    List.Forall₂ (RendersMember s) (encodeFields env s fs vs)
      (lowerFields env s.traits s.memberOrder fs vs) := by
  match fs, vs with
  | f :: fs, v :: vs =>
    exact .cons ⟨rfl, rfl, renders_encodeValue f.info f.ty v⟩ (renders_encodeFields fs vs)
  | [], [] | [], _ :: _ | _ :: _, [] => exact .nil

theorem renders_encodeEntries (f : FieldMeta) (kt : KeyTy) (t : Ty) (es : List (Key × Val)) :
    List.Forall₂ (RendersEntry s kt) (encodeEntries env s f t es)
      (lowerEntries env s.traits s.memberOrder f kt t es) := by
  match es with
  | [] => exact .nil
  | (k, v) :: es =>
    exact .cons ⟨_, renders_encodeValue f t v, rfl⟩ (renders_encodeEntries f kt t es)

end

theorem renders_encode (t : Ty) (v : Val) :
    Renders (encode env s t v) ((lowerTop env s.traits s.memberOrder t v).map (Doc.emit s)) :=
  (renders_encodeFieldValue noField (renders_encodeValue noField t v) t v).inPath
    EncodeError.finalize_code

theorem Renders.ok_iff {m : EStateM EncodeError ω Unit} {x : Option (EStateM EncodeError ω Unit)}
    (h : Renders m x) {w w' : ω} : m w = .ok () w' ↔ ∃ n, x = some n ∧ n w = .ok () w' := by
  cases x with
  | none =>
    obtain ⟨e, w₁, hm⟩ := h w
    rw [hm]
    exact ⟨fun h => (nomatch h), fun ⟨_, h, _⟩ => (nomatch h)⟩
  | some n =>
    have hrun := h w
    cases hm : m w with
    | ok u w₁ =>
      rw [hm] at hrun
      cases hn : n w with
      | ok u' w₂ =>
        rw [hn] at hrun
        obtain rfl : w₁ = w₂ := hrun
        constructor
        · intro h
          exact ⟨n, rfl, hn.trans h⟩
        · rintro ⟨_, ⟨⟩, h⟩
          exact hn.symm.trans h
      | error e w₂ =>
        rw [hn] at hrun
        exact hrun.elim
    | error e w₁ =>
      rw [hm] at hrun
      cases hn : n w with
      | ok u' w₂ =>
        rw [hn] at hrun
        exact hrun.elim
      | error e' w₂ =>
        refine iff_of_false (fun h => nomatch h) ?_
        rintro ⟨_, ⟨⟩, h⟩
        rw [hn] at h
        cases h

/-- A value is encoded exactly if it has a document and the sink writes that. -/
theorem encode_ok_iff {t : Ty} {v : Val} {w w' : ω} :
    encode env s t v w = .ok () w' ↔
      ∃ d, lowerTop env s.traits s.memberOrder t v = some d ∧ d.emit s w = .ok () w' := by
  rw [(renders_encode t v).ok_iff]
  constructor
  · rintro ⟨n, hn, h⟩
    obtain ⟨d, hd, rfl⟩ := Option.map_eq_some_iff.1 hn
    exact ⟨d, hd, h⟩
  · rintro ⟨d, hd, h⟩
    rw [hd]
    exact ⟨_, rfl, h⟩

end

end VCodec
