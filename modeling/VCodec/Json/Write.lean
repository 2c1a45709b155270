import VCodec.Core.Traverse
import VCodec.Json.Bytes
import VCodec.Json.Strings

/-!
# The JSON writer

The sink calls of the writer on its output, its depth and its flags: whether a key has just been
written, and which levels are still empty.
-/

namespace VCodec

/-- `fixed_string::append`: what does not fit is dropped. -/
def fixedAppend (capacity : Nat) (buf s : Bytes) : Bytes := buf ++ s.take (capacity - buf.length)

/-- What fits is appended whole. -/
theorem fixedAppend_eq {n : Nat} {buf s : Bytes} (h : buf.length + s.length ≤ n) :
    fixedAppend n buf s = buf ++ s := by
  rw [fixedAppend, List.take_of_length_le (by omega)]

/-- A buffer that is filled piece by piece, each of a bounded length. -/
theorem foldl_fixedAppend {n k : Nat} {piece : UInt8 → Bytes} (hpiece : ∀ c, (piece c).length ≤ k)
    {buf s : Bytes} (h : buf.length + s.length * k ≤ n) :
    s.foldl (fun b c => fixedAppend n b (piece c)) buf = buf ++ s.flatMap piece := by
  induction s generalizing buf with
  | nil => exact (List.append_nil buf).symm
  | cons c s ih =>
    have hc := hpiece c
    rw [List.length_cons, Nat.add_mul, Nat.one_mul] at h
    rw [List.foldl_cons, fixedAppend_eq (by omega), ih (by rw [List.length_append]; omega),
      List.flatMap_cons,
      List.append_assoc]

namespace Json

structure Writer where
  out : Bytes := []
  depth : Nat := 0
  afterKey : Bool := false
  /-- For each level, whether nothing has been written in it yet. -/
  first : List Bool
  deriving DecidableEq, Repr

abbrev W := EStateM EncodeError Writer

namespace Writer

def append (w : Writer) (bs : Bytes) : Writer := { w with out := w.out ++ bs }

@[simp] theorem append_append (w : Writer) (a b : Bytes) :
    (w.append a).append b = w.append (a ++ b) := by
  simp [append]

def isFirst (w : Writer) : Bool := w.first.getD w.depth false

def setFirst (w : Writer) (b : Bool) : Writer := { w with first := w.first.set w.depth b }

end Writer

section

variable (o : Options)

def startWriter (out : Bytes) : Writer := { out, first := List.replicate (o.maxDepth + 2) false }

def append (bs : Bytes) : W Unit := modify (·.append bs)

def newline : W Unit := modify fun w => w.append (0x0A :: List.replicate (w.depth * o.indent) 0x20)

/-- What stands between the previous value and the next one. -/
def beforeValue : W Unit := do
  let w ← get
  if w.afterKey then set { w with afterKey := false }
  else if w.depth = 0 then return
  else do
    if w.isFirst then modify (·.setFirst false) else append [0x2C]
    if o.pretty then newline o

def nestingError : EncodeError :=
  { code := .depthExceeded, message := str "nesting depth exceeds max_depth (" ++
    decimal o.maxDepth ++
      str "); a cycle through smart pointers is the usual cause" }

def openLevel (c : UInt8) : W Unit := do
  beforeValue o
  let w ← get
  if o.maxDepth ≤ w.depth then throw (nestingError o)
  append [c]
  modify fun w => { w with depth := w.depth + 1 }
  modify (·.setFirst true)

def closeLevel (c : UInt8) : W Unit := do
  let w ← get
  let empty := w.isFirst
  set { w with depth := w.depth - 1 }
  if o.pretty ∧ ¬ empty then newline o
  append [c]

/-! ### Scalars -/

def writeReal (cc : Charconv) (d : Double) : Bytes :=
  if d.mag < doubleFormat.infMag then cc.toChars d else str "null"

def quoted (bs : Bytes) : Bytes := [0x22] ++ bs ++ [0x22]

/-- `write_string` on the output of the writer. -/
def putString (t : Bytes) : W Unit := fun w =>
  match writeString o.validateUtf8 w.out t with
  | .ok out => .ok () { w with out }
  | .error e => .error e w

def null : W Unit := do
  beforeValue o
  append (str "null")

def boolean (b : Bool) : W Unit := do
  beforeValue o
  append (str (if b then "true" else "false"))

/-- The hooks of a member with `json::as_string` put the number in quotes. -/
def uint (f : FieldMeta) (n : Nat) : W Unit := do
  beforeValue o
  append (if f.asString then quoted (decimal n) else decimal n)

def sint (f : FieldMeta) (i : Int) : W Unit := do
  beforeValue o
  append (if f.asString then quoted (decimalInt i) else decimalInt i)

def real (cc : Charconv) (d : Double) : W Unit := do
  beforeValue o
  append (writeReal cc d)

def text (t : Bytes) : W Unit := do
  beforeValue o
  putString o t

def encodeBytes : BytesEncoding → Bytes → Bytes
  | .base64 => base64Encode false
  | .base64url => base64Encode true
  | .hex => hexEncode

/-- Bytes without an annotation are written in base 64. -/
def bytes (f : FieldMeta) (b : Bytes) : W Unit := do
  beforeValue o
  append (quoted (encodeBytes (f.bytes.getD .base64) b))

/-! ### Keys -/

/-- What stands behind a key. -/
def colon : Bytes := if o.pretty then [0x3A, 0x20] else [0x3A]

def afterKey : W Unit := modify fun w => { w with afterKey := true }

def key (k : Bytes) : W Unit := do
  beforeValue o
  putString o k
  append (colon o)
  afterKey

def keyUint (n : Nat) : W Unit := do
  beforeValue o
  append (quoted (decimal n) ++ colon o)
  afterKey

def keySint (i : Int) : W Unit := do
  beforeValue o
  append (quoted (decimalInt i) ++ colon o)
  afterKey

/-- The key as the compiler writes it. -/
def preparedKeyBlob (capacity : Nat) (name : Bytes) (pretty : Bool) : Bytes :=
  let b := fixedAppend capacity [] [0x22]
  let b := name.foldl
    (fun b c => fixedAppend capacity b (if needsEscape c then putEscape c else [c])) b
  let b := fixedAppend capacity b [0x22, 0x3A]
  if pretty then fixedAppend capacity b [0x20] else b

def preparedKey (name : Bytes) : W Unit := do
  beforeValue o
  append (preparedKeyBlob (name.length * 6 + 8) name o.pretty)
  afterKey

/-! ### The sink -/

/-- JSON has neither bulk forms nor integer keys of members, so traversal never asks for them; tags
are dropped. -/
def sink (cc : Charconv) : Sink Writer where
  traits := traits
  memberOrder d := List.range d.fields.length
  null := null o
  boolean := boolean o
  uint := uint o
  sint := sint o
  real _ := real o cc
  text _ := text o
  bytes := bytes o
  writeRange _ _ := throw illTyped
  beginArray _ _ := openLevel o 0x5B
  endArray := closeLevel o 0x5D
  beginMap _ _ := openLevel o 0x7B
  beginMapOrdered _ := openLevel o 0x7B
  endMap := closeLevel o 0x7D
  key := key o
  keyUint := keyUint o
  keySint := keySint o
  preparedKey := preparedKey o
  preparedIntKey _ := throw illTyped
  tag _ := return

end

/-! ### What the calls append -/

/-- The longest escape has six bytes. -/
theorem escapeByte_length (c : UInt8) : (escapeByte c).length ≤ 6 := by
  unfold escapeByte putEscape
  split_ifs <;> simp

theorem escaped_length (name : Bytes) : (escaped name).length ≤ name.length * 6 := by
  induction name with
  | nil => exact Nat.le_refl 0
  | cons c name ih =>
    have hc := escapeByte_length c
    have hcons : escaped (c :: name) = escapeByte c ++ escaped name := List.flatMap_cons
    rw [hcons, List.length_append, List.length_cons]
    omega

/-- The buffer is large enough for every name. -/
theorem preparedKeyBlob_eq (o : Options) (name : Bytes) :
    preparedKeyBlob (name.length * 6 + 8) name o.pretty = quoted (escaped name) ++ colon o := by
  have hlen := escaped_length name
  have hopen : fixedAppend (name.length * 6 + 8) [] [0x22] = [0x22] := fixedAppend_eq (by simp)
  have hfill :
    name.foldl (fun b c => fixedAppend (name.length * 6 + 8) b
    (if needsEscape c then putEscape c else [c])) [0x22] =
      [0x22] ++ escaped name :=
    @foldl_fixedAppend _ 6 escapeByte escapeByte_length [0x22] name
      (by rw [List.length_singleton]; omega)
  have hclose : fixedAppend (name.length * 6 + 8) ([0x22] ++ escaped name) [0x22, 0x3A] =
      [0x22] ++ escaped name ++ [0x22, 0x3A] :=
    fixedAppend_eq (by simp only [List.length_append, List.length_cons, List.length_nil]; omega)
  have hspace : fixedAppend (name.length * 6 + 8) ([0x22] ++ escaped name ++ [0x22, 0x3A]) [0x20] =
      [0x22] ++ escaped name ++ [0x22, 0x3A] ++ [0x20] :=
    fixedAppend_eq (by simp only [List.length_append, List.length_cons, List.length_nil]; omega)
  unfold preparedKeyBlob colon quoted
  simp only [hopen, hfill, hclose, hspace]
  split <;> simp

theorem writeString_of_valid {validate : Bool} {s : Bytes} (hvalid : validate = true → Utf8.Valid s)
    (out : Bytes) :
    writeString validate out s = .ok (out ++ quoted (escaped s)) := by
  have hnone : (if validate then validateUtf8 s else none) = none := by
    cases validate with
    | false => rfl
    | true => exact validateUtf8_eq_none.mpr (hvalid rfl)
  rw [writeString, hnone]
  simp [escapeLoop_eq, quoted]

theorem writeString_of_not_valid {s : Bytes} (hvalid : ¬ Utf8.Valid s) (out : Bytes) :
    ∃ e, writeString true out s = .error e := by
  rw [writeString, if_pos rfl]
  cases hbad : validateUtf8 s with
  | none => exact absurd (validateUtf8_eq_none.mp hbad) hvalid
  | some bad => exact ⟨_, rfl⟩

section

variable (o : Options) (w : Writer)

/-- The next line, on a level. -/
def lineBreak (depth : Nat) : Bytes :=
  if o.pretty then 0x0A :: List.replicate (depth * o.indent) 0x20 else []

def separator : Bytes := (if w.isFirst then [] else [0x2C]) ++ lineBreak o w.depth

/-- The state in which the next value is appended. -/
def Writer.before : Writer :=
  if w.afterKey then { w with afterKey := false }
  else if w.depth = 0 then w
  else (if w.isFirst then w.setFirst false else w).append (separator o w)

def Writer.keyed (bs : Bytes) : Writer := { w.append bs with afterKey := true }

theorem newline_run : (if o.pretty then newline o else pure () : W Unit) w = .ok ()
    (w.append (lineBreak o w.depth)) := by
  unfold lineBreak
  cases o.pretty with
  | true => rfl
  | false => exact congrArg (EStateM.Result.ok ()) (by simp [Writer.append])

theorem beforeValue_run : beforeValue o w = .ok () (w.before o) := by
  obtain ⟨out, depth, after, first⟩ := w
  cases after with
  | true => rfl
  | false =>
    cases depth with
    | zero => rfl
    | succ n =>
      have hrun : beforeValue o { out, depth := n + 1, first } =
          (if (first.getD (n + 1) false) = true then
            modify (·.setFirst false) >>= fun _ => if o.pretty then newline o else pure ()
          else append [0x2C] >>= fun _ => if o.pretty then newline o else pure () : W Unit)
            { out, depth := n + 1, first } := rfl
      rw [hrun]
      unfold Writer.before separator Writer.isFirst
      cases first.getD (n + 1) false with
      | true => exact newline_run o _
      | false =>
        refine (newline_run o _).trans (congrArg (EStateM.Result.ok ()) ?_)
        exact Writer.append_append _ _ _

theorem before_bind (m : W Unit) : (beforeValue o >>= fun _ => m) w = m (w.before o) :=
  Run.bind_of_ok (beforeValue_run o w) _

theorem before_depth : (w.before o).depth = w.depth := by
  unfold Writer.before
  split_ifs <;> rfl

theorem preparedKey_run (name : Bytes) :
    preparedKey o name w = .ok () ((w.before o).keyed (quoted (escaped name) ++ colon o)) := by
  have hrun : preparedKey o name w = (beforeValue o >>= fun _ =>
      append (preparedKeyBlob (name.length * 6 + 8) name o.pretty) >>= fun _ => afterKey) w := rfl
  rw [hrun, before_bind, preparedKeyBlob_eq]
  rfl

theorem key_run (name : Bytes) :
    key o name w = (putString o name >>= fun _ => append (colon o) >>= fun _ => afterKey)
      (w.before o) :=
  before_bind o w _

theorem putString_of_valid {t : Bytes} (hvalid : o.validateUtf8 = true → Utf8.Valid t) :
    putString o t w = .ok () (w.append (quoted (escaped t))) := by
  rw [putString, writeString_of_valid hvalid]
  rfl

theorem key_of_valid {name : Bytes} (hvalid : o.validateUtf8 = true → Utf8.Valid name) :
    key o name w = .ok () ((w.before o).keyed (quoted (escaped name) ++ colon o)) := by
  rw [key_run, Run.bind_of_ok (putString_of_valid o _ hvalid), Writer.keyed, ← Writer.append_append]
  rfl

end

end VCodec.Json
