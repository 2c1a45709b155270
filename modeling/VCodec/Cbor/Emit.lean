import VCodec.Cbor.Encode
import VCodec.Cbor.Sequence
import VCodec.Core.Document

/-!
# The bytes of a document

What the writer appends for a document, and when it throws. Which bytes stand for a part does not
depend on where it stands; the depth, the text and the pinned floats decide whether they are
written, and a buffered map is refused for keys that are equal.
-/

namespace VCodec.Cbor

section

variable (o : Options)

/-! ### Bytes -/

def realBytes (x : Double) : FloatWidth → Bytes
  | .preferred => preferredBytes x
  | .half => halfBytes (toHalfRounded x)
  | .single => singleBytes (singleOfDouble x)
  | .double => doubleBytes x

/-- The pinned width has room for the value. -/
def FitsWidth (x : Double) : FloatWidth → Prop
  | .half =>
    ¬ (x.mag < doubleFormat.infMag ∧ 65520 * 2 ^ doubleFormat.scale ≤ doubleFormat.units x.mag)
  | .single =>
    ¬ (x.mag < doubleFormat.infMag ∧ floatMax * 2 ^ doubleFormat.scale < doubleFormat.units x.mag)
  | _ => True

instance (x : Double) : (w : FloatWidth) → Decidable (FitsWidth x w)
  | .preferred => .isTrue trivial
  | .half => inferInstanceAs (Decidable (¬ (_ ∧ _)))
  | .single => inferInstanceAs (Decidable (¬ (_ ∧ _)))
  | .double => .isTrue trivial

def textBytes (indefinite : Bool) (t : Bytes) : Bytes :=
  if indefinite ∧ ¬ o.deterministic then 0x7F :: (chunks .text t.length t ++ [breakByte])
    else makeHead .text t.length ++ t

def bytesBytes (indefinite : Bool) (b : Bytes) : Bytes :=
  if indefinite ∧ ¬ o.deterministic then 0x5F :: (chunks .bytes b.length b ++ [breakByte])
  else makeHead .bytes b.length ++ b

/-- A container behind its head, definite if its count is given. -/
def openBytes (m : Major) (n : Option Nat) (body : Bytes) : Bytes :=
  match n with
  | some n => makeHead m n ++ body
  | none => makeIndefiniteHead m ++ body ++ [breakByte]

/-- The count that is written before the container's parts, outside deterministic encoding. -/
def laxCount (indefinite : Bool) (n : Option Nat) : Option Nat :=
  if o.indefinite ∨ indefinite then none else n

def arrayBytes (indefinite : Bool) (n : Option Nat) (items : List Bytes) : Bytes :=
  if o.deterministic then makeHead .array (n.getD items.length) ++ items.flatten
  else openBytes .array (laxCount o indefinite n) items.flatten

/-- Entries in the order of their encoded keys. -/
def sortEntriesBytes (kvs : List (Bytes × Bytes)) : List (Bytes × Bytes) :=
  kvs.insertionSort fun a b => a.1 ≤ b.1

def mapBytes (indefinite : Bool) (n : Option Nat) (kvs : List (Bytes × Bytes)) : Bytes :=
  if o.deterministic then makeHead .map kvs.length ++ entryBytes (sortEntriesBytes kvs)
  else openBytes .map (laxCount o indefinite n) (entryBytes kvs)

def membersBytes (n : Nat) (kvs : List (Bytes × Bytes)) : Bytes :=
  openBytes .map (if o.deterministic ∨ ¬ o.indefinite then some n else none) (entryBytes kvs)

end

/-! ### Bytes of a document -/

def wireKey : DocKey → Bytes
  | .text k | .name k => encodeTextKey k
  | .uint n => makeHead .uint n
  | .sint i | .intName i => intHead i

section

variable (o : Options)

mutual

/-- The bytes of a document. -/
def wire : Doc → Bytes
  | .null => [0xF6]
  | .boolean b => [if b then 0xF5 else 0xF4]
  | .uint _ n => makeHead .uint n
  | .sint _ i => intHead i
  | .real f x => realBytes x (f.floatWidth.getD o.floats)
  | .text f t => textBytes o f.indefinite t
  | .bytes f b => bytesBytes o f.indefinite b
  | .range t v =>
    makeHead .tag (typedArrayTag (rangeShape t).1) ++
      (makeHead .bytes (rangeData t v).length ++ rangeData t v)
  | .tag n d => makeHead .tag n ++ wire d
  | .array f n ds => arrayBytes o f.indefinite n (wireEach ds)
  | .map f n es => mapBytes o f.indefinite n (wireEntries es)
  | .members n es => membersBytes o n (wireEntries es)

def wireEach : List Doc → List Bytes
  | [] => []
  | d :: ds => wire d :: wireEach ds

def wireEntries : List (DocKey × Doc) → List (Bytes × Bytes)
  | [] => []
  | (k, d) :: es => (wireKey k, wire d) :: wireEntries es

end

/-! ### What the writer refuses -/

/-- The text of a key is valid; the name of a member is not looked at. -/
def SoundKey : DocKey → Prop
  | .text k => o.validateUtf8 = true → Utf8.Valid k
  | _ => True

mutual

/-- No part nests too deep, is invalid text or overflows its pinned width. -/
def Sound : Nat → Doc → Prop
  | _, .null | _, .boolean _ | _, .uint _ _ | _, .sint _ _ | _, .bytes _ _ | _, .range _ _ => True
  | _, .real f x => FitsWidth x (f.floatWidth.getD o.floats)
  | _, .text _ t => o.validateUtf8 = true → Utf8.Valid t
  | depth, .tag _ d => Sound depth d
  | depth, .array _ _ ds => depth < o.maxDepth ∧ SoundAll (depth + 1) ds
  | depth, .map _ _ es | depth, .members _ es => depth < o.maxDepth ∧ SoundEntries (depth + 1) es

def SoundAll : Nat → List Doc → Prop
  | _, [] => True
  | depth, d :: ds => Sound depth d ∧ SoundAll depth ds

def SoundEntries : Nat → List (DocKey × Doc) → Prop
  | _, [] => True
  | depth, (k, d) :: es => SoundKey o k ∧ Sound depth d ∧ SoundEntries depth es

end

end

mutual

/-- No map that is sorted has two entries with the same encoded key. -/
def Distinct : Doc → Prop
  | .tag _ d => Distinct d
  | .array _ _ ds => DistinctAll ds
  | .map _ _ es => (es.map fun e => wireKey e.1).Nodup ∧ DistinctEntries es
  | .members _ es => DistinctEntries es
  | _ => True

def DistinctAll : List Doc → Prop
  | [] => True
  | d :: ds => Distinct d ∧ DistinctAll ds

def DistinctEntries : List (DocKey × Doc) → Prop
  | [] => True
  | (_, d) :: es => Distinct d ∧ DistinctEntries es

end

section

variable {o : Options}

theorem soundAll_iff {n : Nat} {ds : List Doc} : SoundAll o n ds ↔ ∀ d ∈ ds, Sound o n d := by
  induction ds with
  | nil => exact iff_of_true trivial fun _ h => nomatch h
  | cons d ds ih => rw [SoundAll, ih, List.forall_mem_cons]

theorem soundEntries_iff {n : Nat} {es : List (DocKey × Doc)} :
    SoundEntries o n es ↔ ∀ e ∈ es, SoundKey o e.1 ∧ Sound o n e.2 := by
  induction es with
  | nil => exact iff_of_true trivial fun _ h => nomatch h
  | cons e es ih => rw [SoundEntries, ih, List.forall_mem_cons, and_assoc]

theorem distinctAll_iff {ds : List Doc} : DistinctAll ds ↔ ∀ d ∈ ds, Distinct d := by
  induction ds with
  | nil => exact iff_of_true trivial fun _ h => nomatch h
  | cons d ds ih => rw [DistinctAll, ih, List.forall_mem_cons]

theorem distinctEntries_iff {es : List (DocKey × Doc)} :
    DistinctEntries es ↔ ∀ e ∈ es, Distinct e.2 := by
  induction es with
  | nil => exact iff_of_true trivial fun _ h => nomatch h
  | cons e es ih => rw [DistinctEntries, ih, List.forall_mem_cons]

theorem wireEach_eq (ds : List Doc) : wireEach o ds = ds.map (wire o) := by
  induction ds with
  | nil => rfl
  | cons d ds ih => rw [wireEach, ih, List.map_cons]

theorem wireEntries_eq (es : List (DocKey × Doc)) :
    wireEntries o es = es.map fun e => (wireKey e.1, wire o e.2) := by
  induction es with
  | nil => rfl
  | cons e es ih => rw [wireEntries, ih, List.map_cons]

end

/-! ### Runs -/

/-- The run ends in `w'` if what is written is sound and distinct, and throws otherwise:
`duplicate_key` if nothing else is wrong. -/
structure Outcome (m : W Unit) (w : Writer) (sound distinct : Prop) (w' : Writer) : Prop where
  done : sound → distinct → m w = .ok () w'
  repeated : sound → ¬ distinct → ∃ e w₁, m w = .error e w₁ ∧ e.code = .duplicateKey
  failed : ¬ sound → ∃ e w₁, m w = .error e w₁

namespace Outcome

variable {m n : W Unit} {w w₁ w' : Writer} {p q p' q' : Prop}

theorem of_ok (h : m w = .ok () w') : Outcome m w True True w' where
  done := fun _ _ => h
  repeated := fun _ h => absurd trivial h
  failed := fun h => absurd trivial h

theorem of_check (hdone : p → m w = .ok () w') (hfail : ¬ p → ∃ e w₁, m w = .error e w₁) :
    Outcome m w p True w' where
  done := fun hp _ => hdone hp
  repeated := fun _ h => absurd trivial h
  failed := hfail

theorem seq (hm : Outcome m w p q w₁) (hn : Outcome n w₁ p' q' w') :
    Outcome (do m; n) w (p ∧ p') (q ∧ q') w' where
  done := fun hp hq => (Run.bind_of_ok (hm.done hp.1 hq.1) _).trans (hn.done hp.2 hq.2)
  repeated := by
    intro hp hq
    by_cases hq₁ : q
    · obtain ⟨e, w₂, hrun, hcode⟩ := hn.repeated hp.2 fun h => hq ⟨hq₁, h⟩
      exact ⟨e, w₂, (Run.bind_of_ok (hm.done hp.1 hq₁) _).trans hrun, hcode⟩
    · obtain ⟨e, w₂, hrun, hcode⟩ := hm.repeated hp.1 hq₁
      exact ⟨e, w₂, Run.bind_of_error hrun _, hcode⟩
  failed := by
    intro hp
    by_cases hp₁ : p
    · by_cases hq₁ : q
      · obtain ⟨e, w₂, hrun⟩ := hn.failed fun h => hp ⟨hp₁, h⟩
        exact ⟨e, w₂, (Run.bind_of_ok (hm.done hp₁ hq₁) _).trans hrun⟩
      · obtain ⟨e, w₂, hrun, -⟩ := hm.repeated hp₁ hq₁
        exact ⟨e, w₂, Run.bind_of_error hrun _⟩
    · obtain ⟨e, w₂, hrun⟩ := hm.failed hp₁
      exact ⟨e, w₂, Run.bind_of_error hrun _⟩

theorem congr (h : Outcome m w p q w₁) (hp : p ↔ p') (hq : q ↔ q') (hw : w₁ = w') :
    Outcome m w p' q' w' := by
  obtain rfl := propext hp
  obtain rfl := propext hq
  exact hw ▸ h

/-- A run that can only throw after one that cannot. -/
theorem after (hm : m w = .ok () w₁) (hn : Outcome n w₁ p q w') : Outcome (do m; n) w p q w' :=
  ((of_ok hm).seq hn).congr (iff_of_eq (true_and p)) (iff_of_eq (true_and q)) rfl

theorem before (hm : Outcome m w p q w₁) (hn : n w₁ = .ok () w') : Outcome (do m; n) w p q w' :=
  (hm.seq (of_ok hn)).congr (and_iff_left trivial) (and_iff_left trivial) rfl

end Outcome

variable {o : Options} {w : Writer}

/-- Text is checked before it is written. -/
theorem outcome_check {w' : Writer} (t : Bytes) {n : W Unit} (hn : n w = .ok () w') :
    Outcome (do
      if o.validateUtf8 then checkUtf8 t
      n) w (o.validateUtf8 = true → Utf8.Valid t) True w' := by
  cases o.validateUtf8 with
  | false => exact .of_check (fun _ => hn) fun h => absurd (fun h => nomatch h) h
  | true =>
    refine .of_check (fun h => ?_) fun h => ?_
    · exact (Run.bind_of_ok (checkUtf8_eq_ok.2 ⟨h rfl, rfl⟩) _).trans hn
    · cases hrun : checkUtf8 t w with
      | ok u w₁ => exact absurd (fun _ => (checkUtf8_eq_ok.1 hrun).1) h
      | error e w₁ => exact ⟨e, w₁, Run.bind_of_error hrun _⟩

theorem outcome_text (indefinite : Bool) (t : Bytes) :
    Outcome (textField o indefinite t) w (o.validateUtf8 = true → Utf8.Valid t) True
      ((w.bump 1).append (textBytes o indefinite t)) := by
  unfold textField textBytes
  split
  · have hitem : item w = .ok () (w.bump 1) := rfl
    have happend : append (0x7F :: (chunks .text t.length t ++ [breakByte])) (w.bump 1) =
      .ok () _ := rfl
    exact .after hitem (outcome_check t happend)
  · have hitem : item w = .ok () (w.bump 1) := rfl
    have happend : append (makeHead .text t.length ++ t) (w.bump 1) = .ok () _ := rfl
    exact .after hitem (outcome_check t happend)

theorem outcome_real (x : Double) (width : Option FloatWidth) :
    Outcome (realField o width x) w (FitsWidth x (width.getD o.floats)) True
      ((w.bump 1).append (realBytes x (width.getD o.floats))) := by
  have hitem : item w = .ok () (w.bump 1) := rfl
  refine .after hitem ?_
  unfold writeReal realBytes FitsWidth
  cases width.getD o.floats with
  | preferred => exact .of_ok rfl
  | double => exact .of_ok rfl
  | half =>
    simp only
    split
    · exact .of_check (fun h => absurd (by assumption) h) fun _ => ⟨_, _, rfl⟩
    · exact .of_check (fun _ => rfl) fun h => absurd (by assumption) h
  | single =>
    simp only
    split
    · exact .of_check (fun h => absurd (by assumption) h) fun _ => ⟨_, _, rfl⟩
    · exact .of_check (fun _ => rfl) fun h => absurd (by assumption) h

/-! ### Entries -/

variable {f : Frame}

/-- The writer behind a key of the innermost map. -/
def Writer.keyed (w : Writer) (f : Frame) (kb : Bytes) : Writer :=
  if f.buffered then w.pushFrame (f.withKey f.items kb) else (w.append kb).pushFrame f

/-- The writer behind entries of the innermost map, with `n` items counted. -/
def Writer.entered (w : Writer) (f : Frame) (n : Nat) (kvs : List (Bytes × Bytes)) : Writer :=
  if f.buffered then w.pushFrame (f.withEntries n kvs) else (w.append (entryBytes kvs)).pushFrame
    { f with items := n }

theorem length_keyed (kb : Bytes) : (w.keyed f kb).frames.length = w.frames.length + 1 := by
  unfold Writer.keyed
  split
  · rfl
  · rw [Writer.length_pushFrame, Writer.length_append]

theorem Frame.keyStart_unbuffered (hf : f.buffered = false) : f.keyStart = f := by
  unfold Frame.keyStart
  rw [hf]
  rfl

theorem Frame.keyEnd_unbuffered (hf : f.buffered = false) : f.keyEnd = f := by
  unfold Frame.keyEnd
  rw [hf]
  rfl

/-- Behind the start of a key its bytes are appended. -/
theorem keyRest_run (kb : Bytes) :
    (append kb >>= fun _ => keyEnd) (w.pushFrame f.keyStart) = .ok () (w.keyed f kb) := by
  unfold Writer.keyed
  cases hf : f.buffered with
  | true => exact plainKey_run hf kb
  | false =>
    have happend : (w.pushFrame f).append kb = (w.append kb).pushFrame f :=
      Writer.pushFrame_append_unbuffered w hf kb
    have hend : keyEnd ((w.append kb).pushFrame f) = .ok () ((w.append kb).pushFrame f.keyEnd) := rfl
    rw [Frame.keyStart_unbuffered hf]
    show keyEnd ((w.pushFrame f).append kb) = _
    rw [happend, hend, Frame.keyEnd_unbuffered hf]
    rfl

theorem outcome_key (k : DocKey) :
    Outcome (k.emit (sink o)) (w.pushFrame f) (SoundKey o k) True (w.keyed f (wireKey k)) := by
  have hstart : keyStart (w.pushFrame f) = .ok () (w.pushFrame f.keyStart) := rfl
  cases k with
  | text k => exact .after hstart (outcome_check k (keyRest_run (encodeTextKey k)))
  | uint n => exact .of_ok (keyRest_run _)
  | sint i => exact .of_ok (keyRest_run _)
  | name k => exact .of_ok (keyRest_run _)
  | intName i => exact .of_ok (keyRest_run _)

/-- The next entry, behind a key and a value. -/
theorem entered_cons (n : Nat) (kb vb : Bytes) (kvs : List (Bytes × Bytes)) :
    ∃ (w₁ : Writer) (f₁ : Frame), ((w.keyed f kb).bump 1).append vb = w₁.pushFrame f₁ ∧
      w₁.frames.length = w.frames.length ∧ f₁.items = f.items + 1 ∧
      w₁.entered f₁ n kvs = w.entered f n ((kb, vb) :: kvs) := by
  unfold Writer.keyed Writer.entered
  cases hf : f.buffered with
  | true =>
    refine ⟨w, { f.withKey f.items kb with items := f.items + 1, body := (f.withKey f.items kb).body ++ vb },
      Writer.pushFrame_values w (f := f.withKey f.items kb) hf 1 vb, rfl, rfl, ?_⟩
    have hbuf : ({ f.withKey f.items kb with
      items := f.items + 1, body := (f.withKey f.items kb).body ++ vb } : Frame).buffered = true :=
        hf
    rw [if_pos hbuf, if_pos rfl, Frame.withKey_withEntries f f.items]
  | false =>
    refine ⟨w.append (kb ++ vb), { f with items := f.items + 1 }, ?_, ?_, rfl, ?_⟩
    · rw [if_neg Bool.false_ne_true, Writer.pushFrame_bump,
        Writer.pushFrame_append_unbuffered _ (f := { f with items := f.items + 1 }) hf,
          Writer.append_append]
    · rw [Writer.length_append]
    · have hbuf : ¬ ({ f with items := f.items + 1 } : Frame).buffered = true := by
        rw [hf]; exact Bool.false_ne_true
      rw [if_neg hbuf, if_neg Bool.false_ne_true, Writer.append_append]
      simp only [entryBytes, List.flatMap_cons, hf]

/-! ### Containers -/

theorem Outcome.of_error {m : W Unit} {w w₁ w' : Writer} {p q : Prop} {e : EncodeError}
    (h : m w = .error e w₁) (hp : ¬ p) : Outcome m w p q w' where
  done := fun h => absurd h hp
  repeated := fun h => absurd h hp
  failed := fun _ => ⟨e, w₁, h⟩

/-- The head that a container starts with, if it is not buffered. -/
def openHead (m : Major) : Option Nat → Bytes
  | some n => makeHead m n
  | none => makeIndefiniteHead m

/-- The frame of a container that is not buffered. -/
def directFrame (isMap : Bool) (c : Option Nat) : Frame := { isMap, indefinite := c.isNone }

/-- A container that is not buffered. -/
theorem outcome_direct {m : Major} {isMap : Bool} {c : Option Nat} {k : Nat} {body : Bytes}
    {start run : W Unit} {w₀ : Writer} {p q : Prop}
    (hopen : start w₀ = .ok () ((w.append (openHead m c)).pushFrame (directFrame isMap c)))
    (hrun : Outcome run ((w.append (openHead m c)).pushFrame (directFrame isMap c)) p q
      (((w.append (openHead m c)).append body).pushFrame { directFrame isMap c with items := k })) :
    Outcome (do start; run; close) w₀ p q (w.append (openBytes m c body)) := by
  refine .after hopen (hrun.before ?_)
  cases c with
  | some n =>
    rw [close_sized rfl rfl, Writer.append_append]
    rfl
  | none =>
    have hclose : close (((w.append (openHead m none)).append body).pushFrame
        { directFrame isMap none with items := k }) =
        .ok () (((w.append (openHead m none)).append body).append [breakByte]) := rfl
    rw [hclose, Writer.append_append, Writer.append_append]
    simp only [openHead, openBytes, List.append_assoc]

theorem openFrame_lax (hdet : o.deterministic = false) (hd : w.frames.length < o.maxDepth)
    {m : Major} {isMap : Bool} (indefinite : Bool) (n : Option Nat) :
    openFrame o m (if indefinite ∧ ¬ o.deterministic then none else n) isMap w =
      .ok () ((w.append (openHead m (laxCount o indefinite n))).pushFrame
        (directFrame isMap (laxCount o indefinite n))) := by
  rw [openFrame, if_neg (not_le.2 hd), hdet, if_neg Bool.false_ne_true]
  unfold laxCount
  cases hi : o.indefinite with
  | true => cases indefinite <;> cases n <;> rfl
  | false => cases indefinite <;> cases n <;> rfl

/-! ### Documents -/

theorem imp_and_iff {a b c : Prop} : (a → b) ∧ (a → c) ↔ (a → b ∧ c) := forall_and.symm

theorem sizeOf_getD (n : Option Nat) (k : Nat) (h : ∀ c ∈ n, c = k) : n.getD k = k := by
  cases n with
  | none => rfl
  | some c => exact h c rfl

/-- An array, whose parts have written `items`. -/
theorem outcome_array (indefinite : Bool) (n : Option Nat) {items : List Bytes} {run : W Unit}
    {p q : Prop} (hrun : ∀ w₁ : Writer, w₁.frames.length = w.frames.length + 1 →
      Outcome run w₁ p q ((w₁.bump items.length).append items.flatten)) :
    Outcome (do beginArrayField o indefinite n; run; endArray) w (w.frames.length < o.maxDepth ∧ p)
      q
      ((w.bump 1).append (arrayBytes o indefinite n items)) := by
  have hlen : (w.bump 1).frames.length = w.frames.length := w.length_bump 1
  rcases Nat.lt_or_ge w.frames.length o.maxDepth with hd | hd
  swap
  · have hfail : beginArrayField o indefinite n w = .error (nestingError o) (w.bump 1) :=
      openFrame_of_le (w := w.bump 1) (hlen.symm ▸ hd)
    exact .of_error (Run.bind_of_error hfail _) fun h => absurd h.1 (not_lt.2 hd)
  have hdirect : ∀ c : Option Nat,
      beginArrayField o indefinite n w =
        .ok () (((w.bump 1).append (openHead .array c)).pushFrame (directFrame false c)) →
      Outcome (do beginArrayField o indefinite n; run; endArray) w
        (w.frames.length < o.maxDepth ∧ p) q
        ((w.bump 1).append (openBytes .array c items.flatten)) := by
    intro c hopen
    have hbody := hrun (((w.bump 1).append (openHead .array c)).pushFrame (directFrame false c))
      (by rw [Writer.length_pushFrame, Writer.length_append, hlen])
    rw [Writer.pushFrame_bump, Writer.pushFrame_append_unbuffered _ rfl] at hbody
    refine (outcome_direct (k := (directFrame false c).items + items.length) hopen hbody).congr ?_
      Iff.rfl rfl
    exact (and_iff_right hd).symm
  have hd' : (w.bump 1).frames.length < o.maxDepth := by rwa [hlen]
  cases hdet : o.deterministic with
  | false =>
    have hopen := @openFrame_lax o _ hdet hd' .array false indefinite n
    have hbytes : arrayBytes o indefinite n items =
      openBytes .array (laxCount o indefinite n) items.flatten := by
      unfold arrayBytes
      rw [hdet]
      rfl
    rw [hbytes]
    exact hdirect _ hopen
  | true =>
    have hcount : (if indefinite = true ∧ ¬ o.deterministic = true then none else n) = n := by
      rw [hdet]
      cases indefinite <;> rfl
    have hbytes : arrayBytes o indefinite n items = makeHead .array (n.getD items.length) ++
      items.flatten := by
      unfold arrayBytes
      rw [hdet]
      rfl
    have hbegin : beginArrayField o indefinite n w = openFrame o .array n false (w.bump 1) := by
      unfold beginArrayField
      rw [hcount]
      rfl
    rw [hbytes]
    cases n with
    | some c => exact hdirect (some c) (hbegin.trans (openFrame_sized hdet hd'))
    | none =>
      have hopen := hbegin.trans (openFrame_buffered hdet hd' (.inr rfl))
      have hbody := hrun ((w.bump 1).pushFrame { isMap := false, buffered := true })
        (by rw [Writer.length_pushFrame, hlen])
      rw [Writer.pushFrame_values _ rfl] at hbody
      refine (Outcome.after hopen (hbody.before (close_array rfl rfl rfl))).congr
        (and_iff_right hd).symm Iff.rfl ?_
      simp only [Nat.zero_add, List.nil_append, Option.getD_none]

/-- Sorting the slices sorts the entries. -/
theorem sortSlices_entryBytes (kvs : List (Bytes × Bytes)) :
    sortSlices (kvs.map sliceOf) = (sortEntriesBytes kvs).map sliceOf := by
  have h := sortSlices_map id kvs
  rwa [List.map_id, List.map_id] at h

theorem flatMap_sliceOf (kvs : List (Bytes × Bytes)) :
    (kvs.map sliceOf).flatMap Slice.whole = entryBytes kvs := by
  rw [List.flatMap_map]
  rfl

/-- The sorted entries repeat a key exactly if the entries do. -/
theorem hasRepeat_sorted (kvs : List (Bytes × Bytes)) :
    hasRepeat ((sortEntriesBytes kvs).map sliceOf) = false ↔ (kvs.map Prod.fst).Nodup := by
  have hperm : (sortEntriesBytes kvs).Perm kvs := List.perm_insertionSort _ _
  have hle : ((sortEntriesBytes kvs).map sliceOf).Pairwise fun a b => a.key ≤ b.key :=
    List.pairwise_map.2 (List.pairwise_insertionSort _ _)
  rw [← (hperm.map Prod.fst).nodup_iff]
  constructor
  · intro h
    have hlt := List.pairwise_map.1 (pairwise_of_not_repeat hle h)
    exact List.pairwise_map.2 (hlt.imp fun h => ne_of_lt h)
  · intro h
    refine not_repeat_of_pairwise ?_
    have hne : ((sortEntriesBytes kvs).map sliceOf).Pairwise fun a b => a.key ≠ b.key :=
      List.pairwise_map.2 (List.pairwise_map.1 h)
    exact hle.imp₂ (fun _ _ hle hne => lt_of_le_of_ne hle hne) hne

/-- The entries of a map as they are run: `distinct` is whatever else the values ask for. -/
abbrev EntriesOutcome (w : Writer) (run : W Unit) (k : Nat) (kvs : List (Bytes × Bytes))
    (p q : Prop) : Prop :=
  ∀ (w₁ : Writer) (f : Frame), w₁.frames.length = w.frames.length →
    Outcome run (w₁.pushFrame f) p q (w₁.entered f (f.items + k) kvs)

/-- A map that is not buffered, whose entries have been written. -/
theorem outcome_entries {c : Option Nat} {k : Nat} {kvs : List (Bytes × Bytes)}
    {start run : W Unit} {p q : Prop} (hd : w.frames.length < o.maxDepth)
    (hopen : start w = .ok ()
      (((w.bump 1).append (openHead .map c)).pushFrame (directFrame true c)))
    (hrun : EntriesOutcome w run k kvs p q) :
    Outcome (do start; run; endMap) w (w.frames.length < o.maxDepth ∧ p) q
      ((w.bump 1).append (openBytes .map c (entryBytes kvs))) := by
  have hbody := hrun ((w.bump 1).append (openHead .map c)) (directFrame true c)
    (by rw [Writer.length_append, Writer.length_bump])
  exact (outcome_direct hopen hbody).congr (and_iff_right hd).symm Iff.rfl rfl

theorem outcome_map (indefinite : Bool) (n : Option Nat) {k : Nat} {kvs : List (Bytes × Bytes)}
    {run : W Unit} {p q : Prop} (hrun : EntriesOutcome w run k kvs p (o.deterministic = true → q)) :
    Outcome (do beginMapField o indefinite n; run; endMap) w (w.frames.length < o.maxDepth ∧ p)
      (o.deterministic = true → (kvs.map Prod.fst).Nodup ∧ q)
      ((w.bump 1).append (mapBytes o indefinite n kvs)) := by
  have hlen : (w.bump 1).frames.length = w.frames.length := w.length_bump 1
  rcases Nat.lt_or_ge w.frames.length o.maxDepth with hd | hd
  swap
  · have hfail : beginMapField o indefinite n w = .error (nestingError o) (w.bump 1) :=
      openFrame_of_le (w := w.bump 1) (hlen.symm ▸ hd)
    exact .of_error (Run.bind_of_error hfail _) fun h => absurd h.1 (not_lt.2 hd)
  have hd' : (w.bump 1).frames.length < o.maxDepth := by rwa [hlen]
  cases hdet : o.deterministic with
  | false =>
    have hopen := @openFrame_lax o _ hdet hd' .map true indefinite n
    have hbytes : mapBytes o indefinite n kvs =
      openBytes .map (laxCount o indefinite n) (entryBytes kvs) := by
      unfold mapBytes
      rw [hdet]
      rfl
    rw [hbytes]
    refine (outcome_entries hd hopen hrun).congr Iff.rfl ?_ rfl
    rw [hdet]
    exact iff_of_true (fun h => nomatch h) fun h => nomatch h
  | true =>
    have hopen : beginMapField o indefinite n w =
      .ok () ((w.bump 1).pushFrame { isMap := true, buffered := true }) :=
      openFrame_buffered hdet hd' (.inl rfl)
    have hbytes : mapBytes o indefinite n kvs = makeHead .map kvs.length ++
      entryBytes (sortEntriesBytes kvs) := by
      unfold mapBytes
      rw [hdet]
      rfl
    have hbody := hrun (w.bump 1) { isMap := true, buffered := true } hlen
    have hslices : slices ([] ++ entryBytes kvs) ([] ++ extents 0 kvs) = kvs.map sliceOf :=
      slices_extents [] kvs
    have hclose := close_map (w := w.bump 1)
      (f := Frame.withEntries { isMap := true, buffered := true } (0 + k) kvs) rfl rfl rfl
    have hentries : (Frame.withEntries { isMap := true, buffered := true } (0 + k) kvs).entries =
        [] ++ extents 0 kvs := rfl
    have hbodies : (Frame.withEntries { isMap := true, buffered := true } (0 + k) kvs).body = [] ++
      entryBytes kvs := rfl
    rw [hentries, hbodies, hslices, sortSlices_entryBytes, List.length_map, flatMap_sliceOf,
      show (sortEntriesBytes kvs).length = kvs.length from List.length_insertionSort _ _] at hclose
    have hend : Outcome endMap ((w.bump 1).entered { isMap := true, buffered := true } (0 + k) kvs)
      True
        (kvs.map Prod.fst).Nodup
          ((w.bump 1).append (makeHead .map kvs.length ++ entryBytes (sortEntriesBytes kvs))) := by
      have hrepeat := hasRepeat_sorted kvs
      cases hr : hasRepeat ((sortEntriesBytes kvs).map sliceOf) with
      | false =>
        rw [hr, if_neg Bool.false_ne_true] at hclose
        exact (Outcome.of_ok hclose).congr Iff.rfl (iff_of_true trivial (hrepeat.1 hr)) rfl
      | true =>
        rw [hr, if_pos rfl] at hclose
        have hnodup : ¬ (kvs.map Prod.fst).Nodup := fun h => by
          rw [hrepeat.2 h] at hr
          cases hr
        exact ⟨fun _ h => absurd h hnodup, fun _ _ => ⟨_, _, hclose, rfl⟩,
          fun h => absurd trivial h⟩
    rw [hbytes]
    refine (Outcome.after hopen (hbody.seq hend)).congr ?_ ?_ rfl
    · rw [and_iff_left trivial]
      exact (and_iff_right hd).symm
    · rw [hdet]
      constructor
      · intro h _
        exact ⟨h.2, h.1 rfl⟩
      · intro h
        exact ⟨fun _ => (h rfl).2, (h rfl).1⟩

theorem outcome_members (n : Nat) {k : Nat} {kvs : List (Bytes × Bytes)} {run : W Unit} {p q : Prop}
    (hrun : EntriesOutcome w run k kvs p q) :
    Outcome (do beginMapOrdered o (some n); run; endMap) w (w.frames.length < o.maxDepth ∧ p) q
      ((w.bump 1).append (membersBytes o n kvs)) := by
  have hlen : (w.bump 1).frames.length = w.frames.length := w.length_bump 1
  have hd₀ := Nat.lt_or_ge w.frames.length o.maxDepth
  unfold membersBytes
  by_cases hdef : o.deterministic = true ∨ ¬ o.indefinite = true
  · have hbegin : beginMapOrdered o (some n) w = openOrdered o n (w.bump 1) := by
      unfold beginMapOrdered
      rw [if_pos hdef]
      rfl
    rw [if_pos hdef]
    rcases hd₀ with hd | hd
    · refine outcome_entries hd (hbegin.trans ?_) hrun
      rw [openOrdered, hlen, if_neg (not_le.2 hd)]
      rfl
    · have hfail : openOrdered o n (w.bump 1) = .error (nestingError o) (w.bump 1) := by
        rw [openOrdered, hlen, if_pos hd]
      exact .of_error (Run.bind_of_error (hbegin.trans hfail) _) fun h => absurd h.1 (not_lt.2 hd)
  · have hbegin : beginMapOrdered o (some n) w = openFrame o .map (some n) true (w.bump 1) := by
      unfold beginMapOrdered
      rw [if_neg hdef]
      rfl
    have hdet : o.deterministic = false := Bool.eq_false_iff.2 fun h => hdef (.inl h)
    have hindef : o.indefinite = true := by
      cases hi : o.indefinite with
      | true => rfl
      | false => exact absurd (.inr (by rw [hi]; exact Bool.false_ne_true)) hdef
    rw [if_neg hdef]
    rcases hd₀ with hd | hd
    · refine outcome_entries hd (hbegin.trans ?_) hrun
      rw [openFrame, hlen, if_neg (not_le.2 hd), hdet, if_neg Bool.false_ne_true, hindef]
      rfl
    · have hfail := @openFrame_of_le o (w.bump 1) .map (some n) true (hlen.symm ▸ hd)
      exact .of_error (Run.bind_of_error (hbegin.trans hfail) _) fun h => absurd h.1 (not_lt.2 hd)

theorem length_wireEach (ds : List Doc) : (wireEach o ds).length = ds.length := by
  rw [wireEach_eq, List.length_map]

theorem map_fst_wireEntries (es : List (DocKey × Doc)) :
    (wireEntries o es).map Prod.fst = es.map fun e => wireKey e.1 := by
  rw [wireEntries_eq, List.map_map]
  exact rfl

mutual

/-- What the writer does with a document. -/
theorem outcome_emit (w : Writer) (d : Doc) :
    Outcome (d.emit (sink o)) w (Sound o w.frames.length d) (o.deterministic = true → Distinct d)
      ((w.bump 1).append (wire o d)) := by
  have hplain : ∀ {m : W Unit} {p : Prop} {w' : Writer}, Outcome m w p True w' →
      Outcome m w p (o.deterministic = true → True) w' :=
    fun h => h.congr Iff.rfl (iff_of_true trivial fun _ => trivial) rfl
  cases d with
  | null => exact hplain (.of_ok rfl)
  | boolean b => exact hplain (.of_ok rfl)
  | uint f n => exact hplain (.of_ok rfl)
  | sint f i => exact hplain (.of_ok rfl)
  | real f x => exact hplain (outcome_real x f.floatWidth)
  | text f t => exact hplain (outcome_text f.indefinite t)
  | bytes f b =>
    refine hplain (.of_ok ?_)
    show bytesField o f.indefinite b w = _
    unfold wire bytesBytes bytesField
    split <;> rfl
  | range t v =>
    refine hplain (.of_ok ?_)
    rw [wire, ← Writer.append_append]
    rfl
  | tag n d =>
    have hd := outcome_emit (w.append (makeHead .tag n)) d
    have htag : tag n w = .ok () (w.append (makeHead .tag n)) := rfl
    rw [Writer.length_append] at hd
    refine (Outcome.after htag hd).congr Iff.rfl Iff.rfl ?_
    rw [Writer.append_bump, Writer.append_append]
    rfl
  | array f n ds =>
    refine outcome_array f.indefinite n fun w₁ hlen => ?_
    have hds := outcome_emitAll w₁ ds
    rw [hlen] at hds
    rwa [length_wireEach]
  | map f n es =>
    have h := outcome_map (o := o) (w := w) f.indefinite n fun w₁ f₁ hlen => by
      have hes := outcome_emitEntries w₁ f₁ es
      rwa [hlen] at hes
    rw [map_fst_wireEntries] at h
    exact h
  | members n es =>
    exact outcome_members n fun w₁ f₁ hlen => by
      have hes := outcome_emitEntries w₁ f₁ es
      rwa [hlen] at hes

theorem outcome_emitAll (w : Writer) (ds : List Doc) :
    Outcome (Doc.emitAll (sink o) ds) w (SoundAll o w.frames.length ds)
      (o.deterministic = true → DistinctAll ds)
      ((w.bump ds.length).append (wireEach o ds).flatten) := by
  match ds with
  | [] =>
    refine (Outcome.of_ok ?_).congr Iff.rfl (iff_of_true trivial fun _ => trivial) rfl
    rw [List.length_nil, Writer.bump_zero]
    exact congrArg _ (Writer.append_nil w).symm
  | d :: ds =>
    have hds := outcome_emitAll ((w.bump 1).append (wire o d)) ds
    rw [Writer.length_append, Writer.length_bump] at hds
    refine ((outcome_emit w d).seq hds).congr Iff.rfl imp_and_iff ?_
    rw [Writer.append_bump, Writer.bump_bump, Writer.append_append, List.length_cons, Nat.add_comm]
    rfl

theorem outcome_emitEntries (w : Writer) (f : Frame) (es : List (DocKey × Doc)) :
    Outcome (Doc.emitEntries (sink o) es) (w.pushFrame f) (SoundEntries o (w.frames.length + 1) es)
      (o.deterministic = true → DistinctEntries es)
      (w.entered f (f.items + es.length) (wireEntries o es)) := by
  match es with
  | [] =>
    refine (Outcome.of_ok ?_).congr Iff.rfl (iff_of_true trivial fun _ => trivial) rfl
    unfold Writer.entered
    split
    · simp [Doc.emitEntries, wireEntries, Frame.withEntries, entryBytes, extents]
    · simp [Doc.emitEntries, wireEntries, entryBytes]
  | (k, d) :: es =>
    have hd := outcome_emit (w.keyed f (wireKey k)) d
    rw [length_keyed] at hd
    obtain ⟨w₁, f₁, hnext, hlen, hitems, hentered⟩ :=
      entered_cons (w := w) (f := f) (f.items + (es.length + 1)) (wireKey k) (wire o d)
        (wireEntries o es)
    rw [hnext] at hd
    have hes := outcome_emitEntries w₁ f₁ es
    rw [hlen, hitems, Nat.add_assoc, Nat.add_comm 1, hentered] at hes
    refine ((outcome_key k).seq (hd.seq hes)).congr Iff.rfl ?_ rfl
    rw [imp_and_iff]
    exact iff_of_eq (true_and _)

end

/-! ### Entry points -/

/-- What a run that has ended says of what it has written. -/
theorem Outcome.of_run {m : W Unit} {w w' w₁ : Writer} {p q : Prop} (h : Outcome m w p q w')
    (hrun : m w = .ok () w₁) :
    p ∧ q ∧ w₁ = w' := by
  by_cases hp : p
  · by_cases hq : q
    · have hdone := h.done hp hq
      rw [hrun] at hdone
      cases hdone
      exact ⟨hp, hq, rfl⟩
    · obtain ⟨e, w₂, hfail, -⟩ := h.repeated hp hq
      rw [hrun] at hfail
      cases hfail
  · obtain ⟨e, w₂, hfail⟩ := h.failed hp
    rw [hrun] at hfail
    cases hfail

section

variable {env : Env}

/-- The options that an encoding works with. -/
abbrev effective (env : Env) (o : Options) (t : Ty) : Options :=
  withTypeDeterminismEncode o (isDeterministicType env t)

/-- What stands before an encoding. -/
def selfDescribeBytes (env : Env) (o : Options) (t : Ty) : Bytes :=
  if o.selfDescribe ∨ wantsSelfDescribe env t then makeHead .tag selfDescribeTag else []

theorem encode_eq (o : Options) (t : Ty) (v : Val) :
    encode env o t v =
      match VCodec.encode env (sink (effective env o t)) t v
        { out := selfDescribeBytes env (effective env o t) t } with
      | .ok _ w => .ok w.out
      | .error e _ => .error e := by
  unfold encode encodeAppend selfDescribeBytes
  rfl

/-- A value is encoded exactly if it has a document that the writer does not refuse. -/
theorem encode_ok_iff {o : Options} {t : Ty} {v : Val} {bs : Bytes} :
    encode env o t v = .ok bs ↔
      ∃ d, lowerTop env traits memberOrder t v = some d ∧ Sound (effective env o t) 0 d ∧
        ((effective env o t).deterministic = true → Distinct d) ∧
        bs = selfDescribeBytes env (effective env o t) t ++ wire (effective env o t) d := by
  rw [encode_eq]
  constructor
  · intro h
    split at h
    · rename_i w hrun
      cases h
      obtain ⟨d, hd, hemit⟩ := VCodec.encode_ok_iff.1 hrun
      obtain ⟨hsound, hdistinct, rfl⟩ := (outcome_emit _ d).of_run hemit
      exact ⟨d, hd, hsound, hdistinct, rfl⟩
    · cases h
  · rintro ⟨d, hd, hsound, hdistinct, rfl⟩
    have hemit := (outcome_emit { out := selfDescribeBytes env (effective env o t) t } d).done
      hsound hdistinct
    rw [VCodec.encode_ok_iff.2 ⟨d, hd, hemit⟩]
    rfl

/-- Where nothing else is wrong, it is equal keys that are refused. -/
theorem encode_duplicateKey_iff {o : Options} {t : Ty} {v : Val} {d : Doc}
    (hd : lowerTop env traits memberOrder t v = some d) (hsound : Sound (effective env o t) 0 d) :
    (∃ e, encode env o t v = .error e ∧ e.code = .duplicateKey) ↔
      ¬ ((effective env o t).deterministic = true → Distinct d) := by
  constructor
  · rintro ⟨e, he, -⟩ hdistinct
    have hok := encode_ok_iff.2 ⟨d, hd, hsound, hdistinct, rfl⟩
    rw [he] at hok
    cases hok
  · intro hdistinct
    obtain ⟨e, w', hemit, hcode⟩ :=
      (outcome_emit { out := selfDescribeBytes env (effective env o t) t } d).repeated hsound
        hdistinct
    have hsame := @renders_encode _ env (sink (effective env o t)) t v
    rw [show (sink (effective env o t)).traits = traits from rfl,
      show (sink (effective env o t)).memberOrder = memberOrder from rfl, hd] at hsame
    have hrun := hsame { out := selfDescribeBytes env (effective env o t) t }
    rw [hemit] at hrun
    rw [encode_eq]
    split
    · rename_i w₁ hok
      rw [hok] at hrun
      exact hrun.elim
    · rename_i e₁ w₁ hfail
      rw [hfail] at hrun
      exact ⟨e₁, rfl, hrun.1.trans hcode⟩

end

end VCodec.Cbor
