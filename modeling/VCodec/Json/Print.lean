import VCodec.Json.Output

/-!
# What the JSON writer makes of a document

The text of a document, as a function of the document and the options: one member on each line where
the output is pretty, and no blanks where it is not. The writer appends this text, or throws if a
part of the document nests too deep or is invalid.
-/

namespace VCodec

/-! ### Every part of a document -/

section

variable (p : Nat → Doc → Prop) (q : DocKey → Prop)

mutual

/-- The document and all its parts have the property, inside so many containers, and the keys have
theirs. -/
def Doc.Every : Nat → Doc → Prop
  | n, .tag t d => p n (.tag t d) ∧ Doc.Every n d
  | n, .array f c ds => p n (.array f c ds) ∧ Doc.EveryAll (n + 1) ds
  | n, .map f c es => p n (.map f c es) ∧ Doc.EveryEntry (n + 1) es
  | n, .members c es => p n (.members c es) ∧ Doc.EveryEntry (n + 1) es
  | n, d => p n d

def Doc.EveryAll : Nat → List Doc → Prop
  | _, [] => True
  | n, d :: ds => Doc.Every n d ∧ Doc.EveryAll n ds

def Doc.EveryEntry : Nat → List (DocKey × Doc) → Prop
  | _, [] => True
  | n, (k, d) :: es => q k ∧ Doc.Every n d ∧ Doc.EveryEntry n es

end

end

namespace Json

/-! ### The text -/

/-- The text of a key. -/
def writtenKey : DocKey → Bytes
  | .text k | .name k => k
  | .uint n => decimal n
  | .sint i | .intName i => decimalInt i

section

variable (o : Options) (cc : Charconv)

/-- The members of a level, each on its own line, with commas between them. -/
def lines (n : Nat) : Bool → List Bytes → Bytes
  | _, [] => []
  | first, x :: xs => (if first then [] else [0x2C]) ++ lineBreak o n ++ x ++ lines n false xs

/-- Members between their brackets; the closing one stands on the line of the opening one if there
are none. -/
def enclosed (isObject : Bool) (n : Nat) (xs : List Bytes) : Bytes :=
  openByte isObject ::
    (lines o (n + 1) true xs ++ (if xs = [] then [] else lineBreak o n) ++ [closeByte isObject])

def quotedIf (f : FieldMeta) (bs : Bytes) : Bytes := if f.asString then quoted bs else bs

/-- The literal of a document that is no container. -/
def scalarText : Doc → Option Bytes
  | .null => some (str "null")
  | .boolean b => some (str (if b then "true" else "false"))
  | .uint f n => some (quotedIf f (decimal n))
  | .sint f i => some (quotedIf f (decimalInt i))
  | .real _ x => some (writeReal cc x)
  | .text _ t => some (quoted (escaped t))
  | .bytes f b => some (quoted (encodeBytes (f.bytes.getD .base64) b))
  | _ => none

mutual

/-- The text of a document inside so many containers. -/
def print : Nat → Doc → Bytes
  | n, .tag _ d => print n d
  | n, .array _ _ ds => enclosed o false n (printAll (n + 1) ds)
  | n, .map _ _ es => enclosed o true n (printEntries (n + 1) es)
  | n, .members _ es => enclosed o true n (printEntries (n + 1) es)
  | _, d => (scalarText cc d).getD []

def printAll : Nat → List Doc → List Bytes
  | _, [] => []
  | n, d :: ds => print n d :: printAll n ds

def printEntries : Nat → List (DocKey × Doc) → List Bytes
  | _, [] => []
  | n, (k, d) :: es =>
    (quoted (escaped (writtenKey k)) ++ colon o ++ print n d) :: printEntries n es

end

/-! ### What the writer refuses -/

/-- The writer takes the document, if it takes its parts. -/
def Writable (n : Nat) : Doc → Prop
  | .text _ t => o.validateUtf8 = true → Utf8.Valid t
  | .range _ _ => False
  | .array _ _ _ | .map _ _ _ | .members _ _ => n < o.maxDepth
  | _ => True

/-- The names of members are not looked at. -/
def WritableKey : DocKey → Prop
  | .text k => o.validateUtf8 = true → Utf8.Valid k
  | .intName _ => False
  | _ => True

/-- No part nests too deep, is invalid text or has no JSON form. -/
abbrev Sound : Nat → Doc → Prop := Doc.Every (Writable o) (WritableKey o)

end

/-! ### Runs -/

/-- The text has been appended, and the levels that were open are as they were. -/
structure Appended (bs : Bytes) (w w' : Writer) : Prop where
  out : w'.out = w.out ++ bs
  depth : w'.depth = w.depth
  kept : Kept (w.depth + 1) w w'

/-- Members have been appended to the innermost level. -/
structure Listed (o : Options) (xs : List Bytes) (w w' : Writer) : Prop where
  out : w'.out = w.out ++ lines o w.depth w.isFirst xs
  depth : w'.depth = w.depth
  first : w'.isFirst = (w.isFirst && xs.isEmpty)
  kept : Kept w.depth w w'

/-- A level for every container that may be open. -/
structure Ready (o : Options) (w : Writer) : Prop where
  levels : w.first.length = o.maxDepth + 2
  depth : w.depth ≤ o.maxDepth

/-- The next value is a member of a container. -/
structure Within (o : Options) (w : Writer) : Prop extends Ready o w where
  afterKey : w.afterKey = false
  pos : 0 < w.depth

section

variable {o : Options} {cc : Charconv} {w w' w₁ : Writer} {p : Prop}

theorem Ready.lt (h : Ready o w) : w.depth < w.first.length := by
  rw [h.levels]
  have := h.depth
  omega

theorem Listed.nil (h : w.afterKey = false) : Listed o [] w w where
  out := (List.append_nil _).symm
  depth := rfl
  first := by simp
  kept := ⟨h, rfl, fun _ _ => rfl⟩

theorem Listed.cons {x : Bytes} {xs : List Bytes} (h : Listed o [x] w w₁) (h' : Listed o xs w₁ w') :
    Listed o (x :: xs) w w' where
  out := by
    have hfirst : w₁.isFirst = false := by simpa using h.first
    rw [h'.out, h.out, h.depth, hfirst]
    simp [lines]
  depth := h'.depth.trans h.depth
  first := by
    rw [h'.first, h.first]
    simp
  kept := h.kept.trans h'.kept (Nat.le_of_eq h.depth.symm)

/-- A value has been appended as a member. -/
theorem Appended.listed {x : Bytes} (hw : Within o w) (h : Appended x (w.before o) w') :
    Listed o [x] w w' where
  out := by
    rw [h.out, before_out hw.afterKey hw.pos, separator]
    simp [lines]
  depth := h.depth.trans (before_depth o w)
  first := by
    have hbefore := before_isFirst (o := o) hw.afterKey hw.pos hw.lt
    rw [Writer.isFirst, h.depth, h.kept.first _ (Nat.lt_succ_self _)]
    rw [Writer.isFirst] at hbefore
    rw [hbefore]
    simp
  kept := (before_kept hw.afterKey hw.pos).trans h.kept (by rw [before_depth]; exact Nat.le_succ _)

theorem Listed.within {xs : List Bytes} (hw : Within o w) (h : Listed o xs w w') : Within o w' where
  levels := h.kept.length.trans hw.levels
  depth := by
    rw [h.depth]
    exact hw.depth
  afterKey := h.kept.afterKey
  pos := by
    rw [h.depth]
    exact hw.pos

theorem appended_append (w : Writer) (bs : Bytes) :
    Appended bs (w.before o) ((w.before o).append bs) :=
  ⟨rfl, rfl, before_afterKey w, rfl, fun _ _ => rfl⟩

theorem before_keyed (w : Writer) (kb : Bytes) :
    ((w.before o).keyed kb).before o = (w.before o).append kb := by
  have hafter := before_afterKey (o := o) w
  show { (w.before o).append kb with afterKey := false } = _
  rw [← hafter]
  rfl

/-- A value behind its key. -/
theorem Appended.keyed {kb bs : Bytes} (h : Appended bs (w.append kb) w') :
    Appended (kb ++ bs) w w' where
  out := by
    rw [h.out, ← List.append_assoc]
    rfl
  depth := h.depth
  kept := ⟨h.kept.afterKey, h.kept.length, h.kept.first⟩

theorem openLevel_fails (c : UInt8) (hroom : ¬ w.depth < o.maxDepth) :
    ∃ e w₁, openLevel o c w = .error e w₁ := by
  have hfull : o.maxDepth ≤ (w.before o).depth := by
    rw [before_depth]
    omega
  refine ⟨nestingError o, w.before o, ?_⟩
  unfold openLevel
  rw [before_bind, Run.bind_of_ok (Run.get_apply _), if_pos hfull]
  rfl

/-- Members between the brackets of a container. -/
theorem settles_enclosed {b : Bool} {xs : List Bytes} {run : W Unit} (hw : Ready o w)
    (hrun : ∀ w₁, Within o w₁ → w₁.depth = w.depth + 1 → Run.Settles run w₁ p (Listed o xs w₁)) :
    Run.Settles (do
      openLevel o (openByte b)
      run
      closeLevel o (closeByte b)) w (w.depth < o.maxDepth ∧ p)
        (Appended (enclosed o b w.depth xs) (w.before o)) := by
  by_cases hroom : w.depth < o.maxDepth
  · let u : Writer := { (w.before o).append [openByte b] with depth := w.depth + 1 }
    have hlevels : u.first.length = o.maxDepth + 2 := (before_length w).trans hw.levels
    have hlt : u.depth < u.first.length := by
      rw [hlevels]
      show w.depth + 1 < o.maxDepth + 2
      omega
    have hopen : openLevel o (openByte b) w = .ok () (u.setFirst true) := openLevel_run _ hroom
    have hfirst : (u.setFirst true).isFirst = true := isFirst_setFirst true hlt
    have hkept : Kept (w.depth + 1) (w.before o) (u.setFirst true) :=
      ⟨before_afterKey w, List.length_set, fun i hi => @getD_setFirst u true i (Nat.ne_of_lt hi)⟩
    have hwithin : Within o (u.setFirst true) :=
      { levels := List.length_set.trans hlevels, depth := hroom, afterKey := before_afterKey w,
        pos := Nat.succ_pos _ }
    refine (Run.Settles.after hopen ((hrun _ hwithin rfl).seq (q := True) fun w₁ hlisted =>
      .of_ok (closeLevel_run (closeByte b)) ?_)).congr ?_ fun _ h => h
    · have hdepth : w₁.depth = w.depth + 1 := hlisted.depth
      refine ⟨?_, ?_, ?_⟩
      · show w₁.out ++ _ = (w.before o).out ++ enclosed o b w.depth xs
        rw [hlisted.out, hlisted.first, hfirst, hdepth, Bool.true_and, enclosed]
        show (w.before o).out ++ [openByte b] ++ lines o (w.depth + 1) true xs ++ _ = _
        cases xs with
        | nil => simp [lines]
        | cons x xs => simp
      · show w₁.depth - 1 = (w.before o).depth
        rw [hdepth, before_depth]
        rfl
      · rw [before_depth]
        exact ⟨hlisted.kept.afterKey, hlisted.kept.length.trans hkept.length, fun i hi =>
          (hlisted.kept.first i hi).trans (hkept.first i hi)⟩
    · rw [and_iff_right hroom, and_true]
  · obtain ⟨e, w₁, hfail⟩ := openLevel_fails (openByte b) hroom
    exact ⟨fun h => absurd h.1 hroom, fun _ => ⟨e, w₁, Run.bind_of_error hfail _⟩⟩

theorem settles_putString (t : Bytes) :
    Run.Settles (putString o t) w (o.validateUtf8 = true → Utf8.Valid t)
    (· = w.append (quoted (escaped t))) where
  returns h := ⟨(), _, putString_of_valid o w h, rfl⟩
  fails h := by
    obtain ⟨hvalidate, hinvalid⟩ := Classical.not_imp.1 h
    obtain ⟨e, he⟩ := writeString_of_not_valid hinvalid w.out
    refine ⟨e, w, ?_⟩
    rw [putString, hvalidate, he]

/-- A key, and the colon behind it. -/
theorem settles_key (k : DocKey) : Run.Settles (k.emit (sink o cc)) w (WritableKey o k)
    (· = (w.before o).keyed (quoted (escaped (writtenKey k)) ++ colon o)) := by
  cases k with
  | text k =>
    refine (Run.Settles.after (beforeValue_run o w)
      ((settles_putString k).seq (q := True) fun w₁ h => ?_)).congr
      (and_iff_left trivial) fun _ h => h
    refine .of_ok (show (append (colon o) >>= fun _ => afterKey) w₁ =
      .ok () { w₁.append (colon o) with afterKey := true } from rfl) ?_
    rw [h, Writer.append_append]
    rfl
  | name k => exact .of_ok (preparedKey_run o w k) rfl
  | uint n =>
    have hescaped := escaped_decimalInt n
    rw [decimalInt_nat] at hescaped
    refine .of_ok (before_bind o w _) ?_
    rw [writtenKey, hescaped]
    rfl
  | sint i =>
    refine .of_ok (before_bind o w _) ?_
    rw [writtenKey, escaped_decimalInt]
    rfl
  | intName i => exact .of_error rfl

mutual

/-- The text of the document is appended, if it has one. -/
theorem settles_emit (w : Writer) (hw : Ready o w) (d : Doc) :
    Run.Settles (d.emit (sink o cc)) w (Sound o w.depth d)
      (Appended (print o cc w.depth d) (w.before o)) := by
  have hscalar : ∀ bs, Run.Settles (do
      beforeValue o
      append bs) w True (Appended bs (w.before o)) :=
        fun bs => .of_ok (before_bind o w _) (appended_append w bs)
  match d with
  | .null => exact hscalar _
  | .boolean b => exact hscalar _
  | .uint f n => exact hscalar _
  | .sint f i => exact hscalar _
  | .real f x => exact hscalar _
  | .bytes f b => exact hscalar _
  | .text f t =>
    refine .after (beforeValue_run o w) ((settles_putString t).congr Iff.rfl ?_)
    rintro _ rfl
    exact appended_append w _
  | .range t v => exact .of_error rfl
  | .tag t d => exact (settles_emit w hw d).congr (and_iff_right trivial).symm fun _ h => h
  | .array f n ds =>
    refine settles_enclosed (b := false) hw fun w₁ hwithin hdepth => ?_
    rw [← hdepth]
    exact settles_emitAll w₁ hwithin ds
  | .map f n es | .members n es =>
    refine settles_enclosed (b := true) hw fun w₁ hwithin hdepth => ?_
    rw [← hdepth]
    exact settles_emitEntries w₁ hwithin es

theorem settles_emitAll (w : Writer) (hw : Within o w) (ds : List Doc) :
    Run.Settles (Doc.emitAll (sink o cc) ds) w
      (Doc.EveryAll (Writable o) (WritableKey o) w.depth ds)
      (Listed o (printAll o cc w.depth ds) w) := by
  match ds with
  | [] => exact .of_ok rfl (.nil hw.afterKey)
  | d :: ds =>
    refine (settles_emit w hw.toReady d).seq fun w₁ happended => ?_
    have hlisted := happended.listed hw
    have hrest := settles_emitAll w₁ (hlisted.within hw) ds
    rw [hlisted.depth] at hrest
    exact hrest.congr Iff.rfl fun _ h => hlisted.cons h

theorem settles_emitEntries (w : Writer) (hw : Within o w) (es : List (DocKey × Doc)) :
    Run.Settles (Doc.emitEntries (sink o cc) es) w
      (Doc.EveryEntry (Writable o) (WritableKey o) w.depth es)
      (Listed o (printEntries o cc w.depth es) w) := by
  match es with
  | [] => exact .of_ok rfl (.nil hw.afterKey)
  | (k, d) :: es =>
    refine (settles_key k).seq fun w₁ hkey => ?_
    have hdepth : w₁.depth = w.depth := by
      rw [hkey]
      exact before_depth o w
    have hready : Ready o w₁ := by
      refine ⟨?_, hdepth ▸ hw.depth⟩
      rw [hkey]
      exact (before_length w).trans hw.levels
    have hvalue := settles_emit w₁ hready d
    rw [hdepth] at hvalue
    refine hvalue.seq fun w₂ happended => ?_
    rw [hkey, before_keyed] at happended
    have hlisted := happended.keyed.listed hw
    have hrest := settles_emitEntries w₂ (hlisted.within hw) es
    rw [hlisted.depth] at hrest
    exact hrest.congr Iff.rfl fun _ h => hlisted.cons h

end

end

/-! ### Entry points -/

def encodeAppend (env : Env) (o : Options) (cc : Charconv) (t : Ty) (v : Val) (out : Bytes) :
    Except EncodeError Bytes :=
  match VCodec.encode env (sink o cc) t v (startWriter o out) with
  | .ok _ w => .ok w.out
  | .error e _ => .error e

def encode (env : Env) (o : Options) (cc : Charconv) (t : Ty) (v : Val) :
    Except EncodeError Bytes :=
  encodeAppend env o cc t v []

section

variable {env : Env} {o : Options} {cc : Charconv} {t : Ty} {v : Val}

/-- The members of a struct are written as they are declared. -/
def declared (d : StructDef) : List Nat := List.range d.fields.length

variable (o cc) in
theorem emit_start (out : Bytes) (d : Doc) :
    Run.Settles (d.emit (sink o cc)) (startWriter o out) (Sound o 0 d) fun w => w.out =
      out ++ print o cc 0 d := by
  have hready : Ready o (startWriter o out) := ⟨List.length_replicate, Nat.zero_le _⟩
  exact (settles_emit _ hready d).congr Iff.rfl fun _ h => h.out

/-- A value is encoded exactly if it has a document that the writer does not refuse, and then as the
text of that. -/
theorem encodeAppend_ok_iff {out bs : Bytes} :
    encodeAppend env o cc t v out = .ok bs ↔
      ∃ d, lowerTop env traits declared t v = some d ∧ Sound o 0 d ∧
        bs = out ++ print o cc 0 d := by
  have hrun : encodeAppend env o cc t v out = .ok bs ↔
      ∃ w, VCodec.encode env (sink o cc) t v (startWriter o out) = .ok () w ∧ w.out = bs := by
    unfold encodeAppend
    cases VCodec.encode env (sink o cc) t v (startWriter o out) with
    | ok _ w => simp
    | error e w => simp
  rw [hrun]
  constructor
  · rintro ⟨w, hencode, rfl⟩
    obtain ⟨d, hd, hemit⟩ := VCodec.encode_ok_iff.1 hencode
    have hsettles := emit_start o cc out d
    by_cases hsound : Sound o 0 d
    · obtain ⟨_, w', hemit', hout⟩ := hsettles.returns hsound
      rw [hemit] at hemit'
      cases hemit'
      exact ⟨d, hd, hsound, hout⟩
    · obtain ⟨e, w', hemit'⟩ := hsettles.fails hsound
      rw [hemit] at hemit'
      cases hemit'
  · rintro ⟨d, hd, hsound, rfl⟩
    obtain ⟨_, w, hemit, hout⟩ := (emit_start o cc out d).returns hsound
    exact ⟨w, VCodec.encode_ok_iff.2 ⟨d, hd, hemit⟩, hout⟩

theorem encode_ok_iff {bs : Bytes} :
    encode env o cc t v = .ok bs ↔ ∃ d, lowerTop env traits declared t v = some d ∧ Sound o 0 d ∧
      bs = print o cc 0 d :=
  encodeAppend_ok_iff

end

end Json

end VCodec
