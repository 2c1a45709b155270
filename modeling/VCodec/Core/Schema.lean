import VCodec.Core.Annotations
import VCodec.Core.Keys

/-!
# Schema extraction

The classes of a program as reflection shows them, and the schema that the library makes of one:
`collect_fields` lists the members of its bases and then its own, with the members of a flattened
one in its place, `check_duplicates` refuses a wire name that leads to two members, and
`build_type_info` keeps the first complaint. A member is found again by its path from the root
object, of bases and members.

All of it runs at compile time. `none` stands for a build that is no constant expression: a path
outgrows its eight places.
-/

namespace VCodec.Schema

/-! ### Annotations -/

/-- The annotations without a payload. -/
inductive Mark
  | skip | skipSerializing | skipDeserializing | skipIfNull | skipIfDefault | required | optional | flatten
  | denyUnknownFields | transparent | asInteger | asText
  | textKeyAlias | byteString | typedArray | indefinite | integerKeys | deterministic | selfDescribe
  | asString | stringifyKeys
  deriving DecidableEq, Repr

inductive Ann
  | mark (m : Mark)
  | name (value : Bytes)
  | aliasName (value : Bytes)
  | defaultValue (value : Val)
  | renameAll (style : Case)
  | tag (key : Bytes)
  | key (key : Int)
  | cborTag (tag : Nat)
  | floatWidth (width : FloatWidth)
  | bytes (encoding : BytesEncoding)

namespace Ann

def mark? : Ann → Option Mark
  | mark m => some m
  | _ => none

def name? : Ann → Option Bytes
  | name v => some v
  | _ => none

def aliasName? : Ann → Option Bytes
  | aliasName v => some v
  | _ => none

def defaultValue? : Ann → Option Val
  | defaultValue v => some v
  | _ => none

def renameAll? : Ann → Option Case
  | renameAll c => some c
  | _ => none

def tag? : Ann → Option Bytes
  | tag k => some k
  | _ => none

def key? : Ann → Option Int
  | key k => some k
  | _ => none

def cborTag? : Ann → Option Nat
  | cborTag t => some t
  | _ => none

def floatWidth? : Ann → Option FloatWidth
  | floatWidth w => some w
  | _ => none

def bytes? : Ann → Option BytesEncoding
  | bytes e => some e
  | _ => none

end Ann

/-- `has_annotation`, of an annotation without a payload. -/
def hasMark (m : Mark) (anns : List Ann) : Bool := anns.any fun a => a.mark? = some m

/-- `find_annotation`: the payload of the first one. -/
def findAnn {α : Type} (payload : Ann → Option α) (anns : List Ann) : Option α :=
  anns.findSome? payload

/-! ### Classes -/

/-- A class without its bases and members: its identity, its name, and its annotations in the source
and in `describe<T>`. -/
structure ClassInfo where
  id : Nat
  name : Bytes
  annotations : List Ann := []
  described : List Ann := []
  describedMembers : List (Bytes × List Ann) := []

/-- A non-static data member; an anonymous one has no identifier. -/
structure DataMember where
  identifier : Option Bytes
  ty : Ty
  /-- `display_string_of` its type. -/
  display : Bytes := []
  annotations : List Ann := []
  hasInitializer : Bool := false
  /-- The value in a default-constructed object. -/
  initial : Val := .null

mutual

inductive Class
  | mk (info : ClassInfo) (bases : Bases) (members : Members)

/-- The direct bases of a class, in order, and whether they are virtual. -/
inductive Bases
  | nil
  | cons (isVirtual : Bool) (base : Class) (rest : Bases)

/-- The members of a class, in order; an `object` is of a class type. -/
inductive Members
  | nil
  | plain (m : DataMember) (rest : Members)
  | object (m : DataMember) (type : Class) (rest : Members)

end

def Class.info : Class → ClassInfo
  | .mk info _ _ => info

def Class.bases : Class → Bases
  | .mk _ bs _ => bs

def Class.members : Class → Members
  | .mk _ _ ms => ms

def Members.toList : Members → List DataMember
  | .nil => []
  | .plain m ms => m :: ms.toList
  | .object m _ ms => m :: ms.toList

def typeAnnotations (c : ClassInfo) : List Ann := c.annotations ++ c.described

def memberAnnotations (c : ClassInfo) (identifier : Bytes) (m : DataMember) : List Ann :=
  m.annotations ++ c.describedMembers.flatMap fun d => if d.1 = identifier then d.2 else []

/-! ### Fields -/

/-- A step from an object to a subobject. -/
inductive Hop
  | base (i : Nat)
  | member (i : Nat)
  deriving DecidableEq, Repr

def maxMemberDepth : Nat := 8

def maxAnnotations : Nat := 16

structure FieldInfo where
  wireName : Bytes
  identifier : Bytes
  qualified : Bytes
  aliases : List Bytes
  skipSerializing : Bool
  skipDeserializing : Bool
  skipIfNull : Bool
  skipIfDefault : Bool
  required : Bool
  hasDefault : Bool
  flattened : Bool
  inherited : Bool
  optionalLike : Bool
  hasInitializer : Bool
  explicitName : Bool
  renamed : Bool
  memberIndex : Nat
  tagKey : Option Bytes

structure FieldMeta where
  info : FieldInfo
  path : List Hop
  type : Ty
  owner : Class
  annotations : List Ann
  defaultValue : Option Val
  initial : Val

def isOptionalLike : Ty → Bool
  | .optional _ => true
  | _ => false

def isVariantLike : Ty → Bool
  | .variant _ => true
  | _ => false

/-- Whether a member must be present: the default of its type and initialisers, which the
annotations override. -/
def requiredness (anns : List Ann) (optionalLike hasInitializer hasDefault : Bool) : Bool :=
  let req := ! (optionalLike || hasInitializer || hasDefault)
  let req := if hasMark .required anns then true else req
  let req := if hasMark .optional anns then false else req
  if hasMark .skipDeserializing anns then false else req

/-- The wire name: `name`, else `rename_all` of the class, else the identifier. -/
def wireNameOf (rename : Option Case) (anns : List Ann) (identifier : Bytes) : Bytes :=
  match findAnn Ann.name? anns, rename with
  | some n, _ => n
  | none, some style => applyCase identifier style
  | none, none => identifier

/-- The discriminator: the member's own, else for a variant that of its class. -/
def tagKeyOf (typeTag : Option Bytes) (anns : List Ann) (t : Ty) : Option Bytes :=
  match findAnn Ann.tag? anns with
  | some k => some k
  | none => if isVariantLike t then typeTag else none

/-- A `fixed_string` of so many bytes: what does not fit is dropped. -/
def fixedString (n : Nat) (parts : List Bytes) : Bytes := parts.flatten.take n

def qualifiedName (c : ClassInfo) (identifier : Bytes) : Bytes :=
  fixedString 256 [c.name, str "::", identifier]

/-- The field that a member becomes, the `index`-th of the table. -/
def fieldMeta (owner : Class) (path : List Hop) (viaFlatten viaBase : Bool) (i : Nat)
    (m : DataMember) (identifier : Bytes) (anns : List Ann) (index : Nat) : FieldMeta :=
  let rename := findAnn Ann.renameAll? (typeAnnotations owner.info)
  let explicitName := (findAnn Ann.name? anns).isSome
  let default := findAnn Ann.defaultValue? anns
  { info := {
      wireName := wireNameOf rename anns identifier
      identifier
      qualified := qualifiedName owner.info identifier
      aliases := anns.filterMap Ann.aliasName?
      skipSerializing := hasMark .skipSerializing anns
      skipDeserializing := hasMark .skipDeserializing anns
      skipIfNull := hasMark .skipIfNull anns
      skipIfDefault := hasMark .skipIfDefault anns
      required := requiredness anns (isOptionalLike m.ty) m.hasInitializer default.isSome
      hasDefault := default.isSome
      flattened := viaFlatten
      inherited := viaBase
      optionalLike := isOptionalLike m.ty
      hasInitializer := m.hasInitializer
      explicitName
      renamed := ! explicitName && rename.isSome
      memberIndex := index
      tagKey := tagKeyOf (findAnn Ann.tag? (typeAnnotations owner.info)) anns m.ty }
    path := path ++ [.member i]
    type := m.ty
    owner
    annotations := anns
    defaultValue := default
    initial := m.initial }

/-! ### The walk over a class -/

structure BuildState where
  fields : List FieldMeta := []
  /-- The classes that are being flattened. -/
  flattenStack : List Nat := []
  /-- The first complaint. -/
  error : Bytes := []
  conditional : Bool := false

def BuildState.fail (msg : Bytes) (st : BuildState) : BuildState :=
  if st.error = [] then { st with error := msg } else st

def describedError (c : ClassInfo) (identifier : Bytes) : Bytes :=
  fixedString 256 [str "vcodec::describe<", c.name, str ">: '", identifier,
    str "' is not a non-static data member of ", c.name, str "."]

def virtualBaseError (c b : ClassInfo) : Bytes :=
  fixedString 256 [c.name, str " has a virtual base class ", b.name,
    str "; virtual inheritance is not supported by vcodec v0.1."]

def anonymousError (c : ClassInfo) : Bytes :=
  fixedString 256 [c.name,
    str " has an anonymous non-static data member; anonymous unions and members are not supported by vcodec v0.1."]

def annotationsError (c : ClassInfo) (identifier : Bytes) : Bytes :=
  fixedString 256 [c.name, str "::", identifier, str " carries more than 16 annotations."]

def notStructError (c : ClassInfo) (identifier display : Bytes) : Bytes :=
  fixedString 256 [c.name, str "::", identifier,
    str " is declared [[=vcodec::flatten]] but its type ", display,
    str " is not a struct. flatten splices a nested struct's members into the parent."]

def cycleError (c : ClassInfo) (identifier : Bytes) (mt : ClassInfo) : Bytes :=
  fixedString 256 [c.name, str "::", identifier, str " is declared [[=vcodec::flatten]] but ",
    mt.name,
    str " is already being flattened; flatten cycles are not allowed."]

def depthError (c : ClassInfo) (identifier : Bytes) : Bytes :=
  fixedString 256 [c.name, str "::", identifier,
    str ": flatten/inheritance nesting exceeds the supported depth of 8."]

def checkDescribedIdentifiers (c : ClassInfo) (ms : List DataMember) (st : BuildState) :
    BuildState :=
  c.describedMembers.foldl (fun st d => if ms.any fun m => m.identifier =
    some d.1 then st else st.fail (describedError c d.1)) st

/-- What becomes of a member. -/
inductive Treatment
  | refuse (msg : Bytes)
  | leaveOut
  | splice
  | field (identifier : Bytes) (anns : List Ann)

/-- The tests of the loop, in their order; `type` is the class that the member's type is, if it is
one. -/
def treatment (c : ClassInfo) (depth : Nat) (flattenStack : List Nat) (m : DataMember)
    (type : Option ClassInfo) : Treatment :=
  match m.identifier with
  | none => .refuse (anonymousError c)
  | some identifier =>
    let anns := memberAnnotations c identifier m
    if hasMark .skip anns then .leaveOut
    else if maxAnnotations < anns.length then .refuse (annotationsError c identifier)
    else if hasMark .flatten anns then
      match type with
      | none => .refuse (notStructError c identifier m.display)
      | some mt =>
        if isOptionalLike m.ty then .refuse (notStructError c identifier m.display)
        else if mt.id = c.id ∨ mt.id ∈ flattenStack then .refuse (cycleError c identifier mt)
        else if maxMemberDepth ≤ depth + 1 then .refuse (depthError c identifier)
        else .splice
    else .field identifier anns

/-- Append a field; its path has eight places. -/
def addField (owner : Class) (path : List Hop) (viaFlatten viaBase : Bool) (i : Nat)
    (m : DataMember) (identifier : Bytes) (anns : List Ann) (st : BuildState) : Option BuildState :=
  if maxMemberDepth ≤ path.length then none
  else
    some { st with
      fields :=
        st.fields ++ [fieldMeta owner path viaFlatten viaBase i m identifier anns st.fields.length]
      conditional := st.conditional || hasMark .skipIfNull anns || hasMark .skipIfDefault anns }

mutual

def collectFields (path : List Hop) (viaFlatten viaBase : Bool) :
    Class → BuildState → Option BuildState
  | .mk info bs ms, st => do
    let st ← collectBases info path viaFlatten 0 bs (checkDescribedIdentifiers info ms.toList st)
    collectMembers (.mk info bs ms) path viaFlatten viaBase 0 ms st

def collectBases (c : ClassInfo) (path : List Hop) (viaFlatten : Bool) (i : Nat) :
    Bases → BuildState → Option BuildState
  | .nil, st => some st
  | .cons isVirtual b bs, st =>
    if isVirtual then collectBases c path viaFlatten (i + 1) bs
      (st.fail (virtualBaseError c b.info))
    else do
      let st ← collectFields (path ++ [.base i]) viaFlatten true b st
      collectBases c path viaFlatten (i + 1) bs st

def collectMembers (c : Class) (path : List Hop) (viaFlatten viaBase : Bool) (i : Nat) :
    Members → BuildState → Option BuildState
  | .nil, st => some st
  | .plain m ms, st => do
    let st ← match treatment c.info path.length st.flattenStack m none with
      | .refuse msg => some (st.fail msg)
      | .leaveOut | .splice => some st
      | .field identifier anns => addField c path viaFlatten viaBase i m identifier anns st
    collectMembers c path viaFlatten viaBase (i + 1) ms st
  | .object m mt ms, st => do
    let st ← match treatment c.info path.length st.flattenStack m (some mt.info) with
      | .refuse msg => some (st.fail msg)
      | .leaveOut => some st
      | .splice => do
        let st ← collectFields (path ++ [.member i]) true viaBase
          mt { st with flattenStack := st.flattenStack ++ [c.info.id] }
        some { st with flattenStack := st.flattenStack.dropLast }
      | .field identifier anns => addField c path viaFlatten viaBase i m identifier anns st
    collectMembers c path viaFlatten viaBase (i + 1) ms st

end

/-! ### Duplicate names -/

/-- A name of a field, and whether it is an alias. -/
structure Entry where
  key : Bytes
  field : Nat
  isAlias : Bool

def entriesOf (f : FieldMeta) : List Entry :=
  ⟨f.info.wireName, f.info.memberIndex, false⟩ :: f.info.aliases.map (⟨·, f.info.memberIndex, true⟩)

/-- The first two entries with one name. -/
def firstClash : List Entry → Option (Entry × Entry)
  | [] => none
  | e :: es =>
    match es.find? (·.key = e.key) with
    | some e' => some (e, e')
    | none => firstClash es

/-- Where a name comes from. -/
def via (e : Entry) (f : FieldInfo) (isAlias : Bool) : Bytes :=
  if isAlias then str " (via alias(\"" ++ e.key ++ str "\"))"
  else if f.renamed then str " (via rename_all)"
  else if f.explicitName then str " (via name(\"" ++ f.wireName ++ str "\"))"
  else []

def duplicateError (ea eb : Entry) (a b : FieldInfo) : Bytes :=
  fixedString 512 [a.qualified, str " and ", b.qualified, str " both map to the wire name \"",
    ea.key, str "\"",
    if eb.isAlias ∨ ea.isAlias then via eb b true
    else if b.renamed ∨ a.renamed then str " (via rename_all)"
    else via eb b false,
    str "."]

def checkDuplicates (st : BuildState) : Option BuildState :=
  match firstClash (st.fields.flatMap entriesOf) with
  | none => some st
  | some (ea, eb) => do
    let a ← st.fields[ea.field]?
    let b ← st.fields[eb.field]?
    some (st.fail (duplicateError ea eb a.info b.info))

def runBuild (c : Class) : Option BuildState := do
  let st ← collectFields [] false false c {}
  checkDuplicates st

/-! ### The schema -/

/-- `type_info`. -/
structure TypeInfo where
  name : Bytes
  denyUnknownFields : Bool
  transparent : Bool
  tagKey : Option Bytes
  rename : Option Case
  conditionalFields : Bool
  fieldCount : Nat
  error : Bytes

def TypeInfo.ok (ti : TypeInfo) : Bool := ti.error = []

def transparentError (name : Bytes) (n : Nat) : Bytes :=
  fixedString 256 [name, str " is declared [[=vcodec::transparent]] but has ", decimal n,
    str " members; transparent requires exactly one."]

def buildTypeInfo (c : Class) : Option TypeInfo := do
  let st ← runBuild c
  let anns := typeAnnotations c.info
  let transparent := hasMark .transparent anns
  let st := if transparent ∧ st.fields.length ≠ 1 then st.fail
    (transparentError c.info.name st.fields.length) else st
  return {
    name := c.info.name
    denyUnknownFields := hasMark .denyUnknownFields anns
    transparent
    tagKey := findAnn Ann.tag? anns
    rename := findAnn Ann.renameAll? anns
    conditionalFields := st.conditional
    fieldCount := st.fields.length
    error := st.error }

/-- `fields_of` of the class that declares a member, as far as the allocation of keys asks for
it. -/
def ownerOf (c : Class) : Option Owner := do
  let st ← runBuild c
  return {
    integerKeys := hasMark .integerKeys (typeAnnotations c.info)
    members := st.fields.map fun f => (f.info.identifier, findAnn Ann.key? f.annotations) }

/-- The context of a member for the encoder and the decoder. -/
def FieldMeta.context (f : FieldMeta) (owner : Owner) : VCodec.FieldMeta :=
  { isMember := true
    identifier := f.info.identifier
    qualified := f.info.qualified
    owner
    tagKey := f.info.tagKey
    asInteger := hasMark .asInteger f.annotations
    asText := hasMark .asText f.annotations
    key := findAnn Ann.key? f.annotations
    textKeyAlias := hasMark .textKeyAlias f.annotations
    tags := f.annotations.filterMap Ann.cborTag?
    byteString := hasMark .byteString f.annotations
    typedArray := hasMark .typedArray f.annotations
    indefinite := hasMark .indefinite f.annotations
    floatWidth := findAnn Ann.floatWidth? f.annotations
    bytes := findAnn Ann.bytes? f.annotations
    asString := hasMark .asString f.annotations
    stringifyKeys := hasMark .stringifyKeys f.annotations }

def FieldMeta.field (f : FieldMeta) : Option Field := do
  let owner ← ownerOf f.owner
  return {
    info := f.context owner
    ty := f.type
    wireName := f.info.wireName
    aliases := f.info.aliases
    skipSerializing := f.info.skipSerializing
    skipDeserializing := f.info.skipDeserializing
    skipIfNull := f.info.skipIfNull
    skipIfDefault := f.info.skipIfDefault
    required := f.info.required
    default := f.defaultValue
    initial := f.initial }

/-- The schema of a class that the program compiles with. -/
def structDef (c : Class) : Option StructDef := do
  let ti ← buildTypeInfo c
  let st ← runBuild c
  let fields ← st.fields.mapM FieldMeta.field
  let anns := typeAnnotations c.info
  if ti.ok then
    return {
      name := ti.name
      denyUnknown := ti.denyUnknownFields
      transparent := ti.transparent
      tags := anns.filterMap Ann.cborTag?
      deterministic := hasMark .deterministic anns
      selfDescribe := hasMark .selfDescribe anns
      fields }
  else none

/-! ### Enumerations and alternatives -/

structure EnumeratorDecl where
  identifier : Bytes
  value : Int
  annotations : List Ann := []

/-- An enumeration, with its annotations in the source and in `describe<E>`. -/
structure EnumDecl where
  name : Bytes
  underlying : IntTy
  annotations : List Ann := []
  described : List Ann := []
  enumerators : List EnumeratorDecl

def EnumDecl.typeAnnotations (c : EnumDecl) : List Ann := c.annotations ++ c.described

def enumeratorInfo (rename : Option Case) (e : EnumeratorDecl) : Enumerator where
  name := wireNameOf rename e.annotations e.identifier
  identifier := e.identifier
  value := e.value
  skipped := hasMark .skip e.annotations
  aliases := e.annotations.filterMap Ann.aliasName?

def buildEnumSchema (c : EnumDecl) : List Enumerator :=
  c.enumerators.map (enumeratorInfo (findAnn Ann.renameAll? c.typeAnnotations))

def enumDef (c : EnumDecl) : EnumDef where
  name := c.name
  underlying := c.underlying
  enumerators := buildEnumSchema c
  asInteger := hasMark .asInteger c.typeAnnotations
  asText := hasMark .asText c.typeAnnotations

/-- The type of an alternative; a specialisation has no identifier of its own. -/
structure AlternativeDecl where
  identifier : Option Bytes
  qualified : Bytes
  annotations : List Ann := []
  described : List Ann := []
  ty : Ty

def alternativeName (a : AlternativeDecl) : Bytes :=
  match findAnn Ann.name? (a.annotations ++ a.described) with
  | some n => n
  | none => a.identifier.getD a.qualified

/-- `variant_names`, with the types. -/
def alternatives (as : List AlternativeDecl) : List (Bytes × Ty) :=
  as.map fun a => (alternativeName a, a.ty)

end VCodec.Schema
