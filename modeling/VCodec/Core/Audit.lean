import VCodec.Core.Structs

/-!
# The audit

`audit_type` walks a type for a format and a direction and keeps the first complaint. A struct is
audited once: the walk turns back at one that it is in or has done. All the same it accepts a type
exactly if everything that is reached through its parts, with recursion in the types and through
every member that the direction does not skip, is acceptable by itself (`audit_ok_iff`).
-/

namespace VCodec.Schema

open Relation (ReflTransGen)

/-! ### Formats and programs -/

inductive Direction
  | encode | decode
  deriving DecidableEq, Repr

/-- What the audit asks of `format_traits`. -/
structure Rules where
  name : Bytes
  integerKeySpelling : Bytes
  bytesHint : Bytes
  keyHint : Bytes
  bytesBorrowable : Bool
  traits : Traits
  canLowerBytes : VCodec.FieldMeta → Bool
  canLowerKey : VCodec.FieldMeta → KeyTy → Bool
  /-- `check_type`, of a class with its fields. -/
  checkType : Class → List FieldMeta → Bytes
  /-- `check_field`, in a program with the given classes. -/
  checkField : (Nat → Class) → FieldMeta → Bytes

/-- The types of a program: the classes, the spelling of types, and what the language says of
them. -/
structure Types where
  classes : Nat → Class
  /-- `type_name_of`. -/
  typeName : Ty → Bytes
  /-- `type_str`. -/
  typeStr : Ty → Bytes
  equalityComparable : Ty → Bool
  defaultInitializable : Nat → Bool
  defaultAssignable : Ty → Val → Bool

structure AuditState where
  dir : Direction
  /-- The structs that the walk is in. -/
  visiting : List Nat := []
  done : List Nat := []
  /-- The first complaint. -/
  error : Bytes := []
  borrows : Bool := false

namespace AuditState

def failed (st : AuditState) : Bool := st.error ≠ []

def fail (msg : Bytes) (st : AuditState) : AuditState :=
  if st.error = [] then { st with error := msg } else st

def enter (id : Nat) (st : AuditState) : AuditState := { st with visiting := st.visiting ++ [id] }

def leave (id : Nat) (st : AuditState) : AuditState :=
  { st with visiting := st.visiting.dropLast, done := st.done ++ [id] }

/-- Something of the type aliases the input. -/
def borrow (b : Bool) (st : AuditState) : AuditState :=
  { st with borrows := st.borrows || (b && st.dir = .decode) }

end AuditState

abbrev Audit := AuditState → Option AuditState

def FieldMeta.skipped (dir : Direction) (f : FieldMeta) : Bool :=
  match dir with
  | .encode => f.info.skipSerializing
  | .decode => f.info.skipDeserializing

/-- What stands before the first `::`. -/
def beforeColons : Bytes → Bytes
  | a :: b :: rest => if a = 0x3A ∧ b = 0x3A then [] else a :: beforeColons (b :: rest)
  | rest => rest

section

variable (F : Rules) (P : Types)

/-! ### Messages -/

/-- A message behind a path. -/
def about (t : Ty) (msg : List Bytes) : Bytes :=
  str " (" ++ P.typeStr t ++ str ")\n  " ++ msg.flatten

def noCodec (t : Ty) : Bytes :=
  str " (type " ++ P.typeStr t ++ str ")\n  has no codec. Provide vcodec::codec_for<" ++
    P.typeStr t ++
    str ">, mark the member\n  [[=vcodec::skip]], or give it [[=vcodec::with<YourCodec>]]."

def hinted (hint : Bytes) : Bytes := if hint = [] then str "Give it a lowering" else hint

def noBytesLowering (t : Ty) : Bytes :=
  about P t [str "is byte-like but has no ", F.name, str " lowering.\n  ", hinted F.bytesHint,
    str ", or mark it [[=vcodec::skip]]."]

def needsTag (t : Ty) (owner : Bytes) : Bytes :=
  about P t [str "needs a discriminator. Add [[=vcodec::tag(\"type\")]] to ", owner, str "."]

def keyTyName : KeyTy → Bytes
  | .text _ => str "text"
  | .int _ => str "integer"

def noKey (t : Ty) (k : KeyTy) : Bytes :=
  about P t [str "has ", keyTyName k, str " keys, which ", F.name, str " cannot represent.\n  ",
    hinted F.keyHint,
    str ", use string keys, or mark it [[=vcodec::skip]]."]

def encodeOnly (t : Ty) (use : Bytes) : Bytes :=
  about P t [str "is encode-only and cannot be decoded into. Use ", use,
    str ", or mark it [[=vcodec::skip_deserializing]]."]

/-! ### Structs -/

/-- The error of `build_key_table`: the first member whose key an earlier one has. -/
def clashOf (d : StructDef) : List Field → List Field → Option (Field × Field × Int)
  | _, [] => none
  | seen, f :: fs =>
    match F.traits.integerKey d f with
    | none => clashOf d (seen ++ [f]) fs
    | some k =>
      match seen.find? fun g => F.traits.integerKey d g = some k with
      | some g => some (g, f, k)
      | none => clashOf d (seen ++ [f]) fs

def keyError (d : StructDef) : Option Bytes :=
  (clashOf F d [] d.fields).map fun x =>
    fixedString 512 [x.1.info.qualified, str " and ", x.2.1.info.qualified, str " both map to the ",
      F.name, str " key ",
      decimalInt x.2.2, str " (via ", F.integerKeySpelling, str "(", decimalInt x.2.2, str "))."]

/-- What is wrong with a member of struct `id`, apart from its type. -/
def memberFault (id : Nat) (f : FieldMeta) : Option Bytes :=
  let name := (P.classes id).info.name
  if f.info.skipIfNull ∧ isOptionalLike f.type = false then
    some (about P f.type [str "is declared [[=vcodec::skip_if_null]] but is not optional-like ",
      str "(std::optional, std::unique_ptr, std::shared_ptr)."])
  else if f.info.skipIfDefault ∧ P.equalityComparable f.type = false then
    some (about P
      f.type [str "is declared [[=vcodec::skip_if_default]] but is not equality-comparable."])
  else if f.info.skipIfDefault ∧ P.defaultInitializable id = false then
    some (about P
      f.type [str
      "is declared [[=vcodec::skip_if_default]], which compares against a default-constructed ",
      name,
      str ", but ", name, str " is not default-constructible."])
  else if f.defaultValue.any fun v => ! P.defaultAssignable f.type v then
    some (about P
      f.type [str "has a default_value whose type does not convert to the member's type."])
  else if isVariantLike f.type ∧ f.info.tagKey = none then some (needsTag P f.type name)
  else if F.checkField P.classes f ≠ [] then some (about P f.type [F.checkField P.classes f])
  else none

/-- A member of struct `id`, unless the direction skips it; `rec` audits its type. -/
def auditField (rec : VCodec.FieldMeta → Ty → Bytes → Audit) (id : Nat) (path : Bytes)
    (f : FieldMeta) : Audit := fun st =>
  if f.skipped st.dir then some st
  else
    match memberFault F P id f with
    | some msg => some (st.fail (path ++ str "::" ++ f.info.identifier ++ msg))
    | none => f.field.bind fun x => rec x.info f.type (path ++ str "::" ++ f.info.identifier) st

def auditMember (rec : VCodec.FieldMeta → Ty → Bytes → Audit) (id : Nat) (path : Bytes)
    (f : FieldMeta) : Audit := fun st =>
  if st.failed then some st else auditField F P rec id path f st

def auditMembers (rec : VCodec.FieldMeta → Ty → Bytes → Audit) (id : Nat) (path : Bytes)
    (fs : List FieldMeta) : Audit := fun st =>
  fs.foldlM (fun st f => auditMember F P rec id path f st) st

/-- `audit_struct`. -/
def auditStruct (rec : VCodec.FieldMeta → Ty → Bytes → Audit) (id : Nat) (path : Bytes) : Audit :=
  fun st =>
  (buildTypeInfo (P.classes id)).bind fun ti =>
    if ti.error ≠ [] then some (st.fail ti.error)
    else
      (structDef (P.classes id)).bind fun d =>
        match keyError F d with
        | some msg => some (st.fail msg)
        | none =>
          (runBuild (P.classes id)).bind fun bs =>
            if F.checkType (P.classes id) bs.fields ≠ [] then some
              (st.fail (path ++ str " " ++ F.checkType (P.classes id) bs.fields))
            else auditMembers F P rec id path bs.fields st

/-! ### Types -/

/-- A range of bytes. -/
def auditBytes (f : VCodec.FieldMeta) (t : Ty) (path : Bytes) : Audit := fun st =>
  if F.canLowerBytes f = false then some (st.fail (path ++ noBytesLowering F P t))
  else if st.dir = .decode ∧ t.borrowsBytes = true then
    if F.bytesBorrowable then some (st.borrow true) else some
      (st.fail (path ++ encodeOnly P t (str "std::vector<std::byte>")))
  else some st

def textKey : KeyTy → Bool
  | .text view => view
  | .int _ => false

/-- The test of a type, and the audit of its parts; `rec` audits one of them. -/
def auditParts (rec : VCodec.FieldMeta → Ty → Bytes → Audit) (f : VCodec.FieldMeta) (path : Bytes) :
    Ty → Audit
  | .string view => fun st => some (st.borrow view)
  | .optional t => rec f t path
  | .variant alts => fun st =>
    if f.tagKey = none then some (st.fail (path ++ needsTag P (.variant alts) (beforeColons path)))
    else alts.foldlM (fun st a => rec noField a.2 path st) st
  | .byteRange r => auditBytes F P f (.byteRange r) path
  | .map kind k t => fun st =>
    if F.canLowerKey f k = false then some (st.fail (path ++ noKey F P (.map kind k t) k)) else rec
      f t path (st.borrow (textKey k))
  | .tuple ts => fun st => ts.foldlM (fun st t => rec f t path st) st
  | .array n t =>
    if F.traits.isBytes f (.array n t) then auditBytes F P f (.array n t) path else rec f t path
  | .seq kind t =>
    if F.traits.isBytes f (.seq kind t) then auditBytes F P f (.seq kind t) path else rec f t path
  | .struct id => fun st =>
    if id ∈ st.visiting ∨ id ∈ st.done then some st
    else (auditStruct F P rec id path (st.enter id)).map (AuditState.leave id)
  | .time d =>
    fun st => if F.traits.timeCodec then some st else some (st.fail (path ++ noCodec P (.time d)))
  | _ => some

/-- `audit_type`, in the context of a member. The recursion of the compiler has a bound. -/
def auditType : Nat → VCodec.FieldMeta → Ty → Bytes → Audit
  | 0, _, _, _ => fun _ => none
  | n + 1, f, t, path =>
    fun st => if st.failed then some st else auditParts F P (auditType n) f path t st

structure AuditResult where
  ok : Bool
  borrows : Bool
  text : Bytes

/-- `audit`. -/
def audit (n : Nat) (dir : Direction) (t : Ty) : Option AuditResult :=
  (auditType F P n noField t (P.typeName t) { dir }).map fun st =>
    { ok := ! st.failed, borrows := st.borrows, text := fixedString 1024 [st.error] }

/-! ### What is reached -/

abbrev Node := VCodec.FieldMeta × Ty

/-- A part of a type, in the context in which it is audited. -/
inductive Part (dir : Direction) : Node → Node → Prop
  | optional {f : VCodec.FieldMeta} {t : Ty} : Part dir (f, .optional t) (f, t)
  | alternative {f : VCodec.FieldMeta} {alts : List (Bytes × Ty)} {a : Bytes × Ty} (h : a ∈ alts) :
      Part dir (f, .variant alts) (noField, a.2)
  | map {f : VCodec.FieldMeta} {kind : MapKind} {k : KeyTy} {t : Ty} :
      Part dir (f, .map kind k t) (f, t)
  | tuple {f : VCodec.FieldMeta} {ts : List Ty} {t : Ty} (h : t ∈ ts) :
      Part dir (f, .tuple ts) (f, t)
  | array {f : VCodec.FieldMeta} {n : Nat} {t : Ty} (h : F.traits.isBytes f (.array n t) = false) :
      Part dir (f, .array n t) (f, t)
  | seq {f : VCodec.FieldMeta} {kind : SeqKind} {t : Ty}
      (h : F.traits.isBytes f (.seq kind t) = false) : Part dir (f, .seq kind t) (f, t)
  | member {f : VCodec.FieldMeta} {id : Nat} {bs : BuildState} {g : FieldMeta} {x : Field}
      (hb : runBuild (P.classes id) = some bs)
    (hg : g ∈ bs.fields) (hskip : g.skipped dir = false) (hx : g.field = some x) :
      Part dir (f, .struct id) (x.info, g.type)

/-- A struct that the audit has nothing to complain about, apart from the types of its members. -/
structure SoundStruct (dir : Direction) (id : Nat) : Prop where
  accepted : (P.classes id).Accepted
  keys : ∀ d, structDef (P.classes id) = some d → (d.fields.filterMap (F.traits.integerKey d)).Nodup
  type : ∀ bs, runBuild (P.classes id) = some bs → F.checkType (P.classes id) bs.fields = []
  members : ∀ bs, runBuild (P.classes id) = some bs → ∀ g ∈ bs.fields, g.skipped dir = false →
    memberFault F P id g = none

/-- The ranges of bytes that the format has a form for. -/
def Lowers (dir : Direction) (f : VCodec.FieldMeta) (t : Ty) : Prop :=
  F.canLowerBytes f = true ∧ (dir = .decode → t.borrowsBytes = true → F.bytesBorrowable = true)

/-- A type that is acceptable apart from its parts. -/
def Acceptable (dir : Direction) : Node → Prop
  | (f, .variant _) => f.tagKey ≠ none
  | (f, .byteRange r) => Lowers F dir f (.byteRange r)
  | (f, .map _ k _) => F.canLowerKey f k = true
  | (f, .array n t) => F.traits.isBytes f (.array n t) = true → Lowers F dir f (.array n t)
  | (f, .seq kind t) => F.traits.isBytes f (.seq kind t) = true → Lowers F dir f (.seq kind t)
  | (_, .struct id) => SoundStruct F P dir id
  | (_, .time _) => F.traits.timeCodec = true
  | _ => True

/-- A type whose values alias the input, apart from its parts. -/
def borrowsInput : Ty → Bool
  | .string view => view
  | .map _ k _ => textKey k
  | t => t.borrowsBytes

/-- Decoding a type yields values that alias the input. -/
def Borrows (dir : Direction) (x : Node) : Prop := dir = .decode ∧ borrowsInput x.2 = true

end

end VCodec.Schema
