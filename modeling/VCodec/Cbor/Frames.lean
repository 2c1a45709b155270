import VCodec.Cbor.Grammar
import VCodec.Cbor.Write

/-!
# What the sink calls do to the writer

Every call appends bytes to the nearest buffered frame, counts an item, or opens and closes a
frame. The lemmas here say so once, so that a run of calls is calculated without looking into the
stack: `bump k` counts `k` items of the innermost frame, and appending commutes with it and with an
unbuffered frame on top.
-/

namespace VCodec.Cbor

namespace Writer

/-- Count `k` items of the innermost frame. -/
def bump (w : Writer) (k : Nat) : Writer := w.modifyTop fun f => { f with items := f.items + k }

end Writer

theorem appendFrames_nil (fs : List Frame) :
    appendFrames [] fs = if fs.any Frame.buffered then some fs else none := by
  induction fs with
  | nil => rfl
  | cons f fs ih =>
    rw [appendFrames, List.any_cons, ih, List.append_nil]
    by_cases hf : f.buffered = true
    · rw [if_pos hf, if_pos (by simp [hf])]
    · rw [if_neg hf]
      cases fs.any Frame.buffered <;> simp [hf]

theorem appendFrames_append (a b : Bytes) (fs : List Frame) :
    (appendFrames a fs).bind (appendFrames b) = appendFrames (a ++ b) fs := by
  induction fs with
  | nil => rfl
  | cons f fs ih =>
    simp only [appendFrames]
    cases hb : f.buffered with
    | true => simp [appendFrames]
    | false =>
      rw [← ih]
      cases appendFrames a fs <;> simp [appendFrames, hb]

theorem appendFrames_eq_none {a b : Bytes} {fs : List Frame} (h : appendFrames a fs = none) :
    appendFrames b fs = none := by
  induction fs with
  | nil => rfl
  | cons f fs ih =>
    rw [appendFrames] at h ⊢
    split at h
    · cases h
    · rw [if_neg (by assumption), ih (Option.map_eq_none_iff.1 h)]
      rfl

theorem appendFrames_length {a : Bytes} {fs gs : List Frame} (h : appendFrames a fs = some gs) :
    gs.length = fs.length := by
  induction fs generalizing gs with
  | nil => cases h
  | cons f fs ih =>
    rw [appendFrames] at h
    split at h
    · cases h
      rfl
    · obtain ⟨hs, heq, rfl⟩ := Option.map_eq_some_iff.1 h
      rw [List.length_cons, ih heq, List.length_cons]

namespace Writer

@[simp] theorem append_nil (w : Writer) : w.append [] = w := by
  rw [append, appendFrames_nil]
  split
  · rename_i h
    split at h
    · cases h
      rfl
    · cases h
  · rw [List.append_nil]

@[simp] theorem append_append (w : Writer) (a b : Bytes) :
    (w.append a).append b = w.append (a ++ b) := by
  have hab := appendFrames_append a b w.frames
  unfold append
  cases ha : appendFrames a w.frames with
  | none =>
    rw [ha] at hab
    rw [← hab]
    simp only [Option.bind_none, appendFrames_eq_none ha, List.append_assoc]
  | some fs =>
    rw [ha, Option.bind_some] at hab
    rw [← hab]
    cases hb : appendFrames b fs with
    | some gs => simp
    | none =>
      have := appendFrames_append [] a w.frames
      simp only [hb] at hab ⊢
      have hnone := appendFrames_eq_none (b := a) hab.symm
      rw [ha] at hnone
      cases hnone

@[simp] theorem length_append (w : Writer) (a : Bytes) :
    (w.append a).frames.length = w.frames.length := by
  unfold append
  cases h : appendFrames a w.frames with
  | none => rfl
  | some fs => exact appendFrames_length h

@[simp] theorem length_bump (w : Writer) (k : Nat) :
    (w.bump k).frames.length = w.frames.length := by
  obtain ⟨out, frames⟩ := w
  cases frames <;> rfl

@[simp] theorem bump_zero (w : Writer) : w.bump 0 = w := by
  obtain ⟨out, frames⟩ := w
  cases frames <;> rfl

@[simp] theorem bump_bump (w : Writer) (j k : Nat) : (w.bump j).bump k = w.bump (j + k) := by
  obtain ⟨out, frames⟩ := w
  cases frames with
  | nil => rfl
  | cons f fs => simp [bump, modifyTop, Nat.add_assoc]

/-- Appending to a buffered frame. -/
theorem pushFrame_append_buffered (w : Writer) {f : Frame} (hf : f.buffered = true) (a : Bytes) :
    (w.pushFrame f).append a = w.pushFrame { f with body := f.body ++ a } := by
  simp [append, pushFrame, appendFrames, hf]

/-- Appending past an unbuffered frame. -/
theorem pushFrame_append_unbuffered (w : Writer) {f : Frame} (hf : f.buffered = false) (a : Bytes) :
    (w.pushFrame f).append a = (w.append a).pushFrame f := by
  unfold append pushFrame
  simp only [appendFrames, hf, Bool.false_eq_true, if_false]
  cases appendFrames a w.frames <;> rfl

theorem pushFrame_bump (w : Writer) (f : Frame) (k : Nat) :
    (w.pushFrame f).bump k = w.pushFrame { f with items := f.items + k } := rfl

/-- Values in a buffered frame. -/
theorem pushFrame_values (w : Writer) {f : Frame} (hf : f.buffered = true) (k : Nat) (a : Bytes) :
    ((w.pushFrame f).bump k).append a = w.pushFrame
      { f with items := f.items + k, body := f.body ++ a } := by
  have hitems : ({ f with items := f.items + k } : Frame).buffered = true := hf
  rw [pushFrame_bump, pushFrame_append_buffered _ hitems]

theorem append_bump (w : Writer) (a : Bytes) (k : Nat) :
    (w.append a).bump k = (w.bump k).append a := by
  obtain ⟨out, frames⟩ := w
  cases frames with
  | nil => rfl
  | cons f fs =>
    have hpush : ∀ g : Frame, (⟨out, g :: fs⟩ : Writer) = pushFrame ⟨out, fs⟩ g := fun _ => rfl
    have hitems : ({ f with items := f.items + k } : Frame).buffered = f.buffered := rfl
    rw [hpush, pushFrame_bump]
    rcases Bool.eq_false_or_eq_true f.buffered with hf | hf
    · rw [pushFrame_append_buffered _ hf, pushFrame_append_buffered _ (hitems.trans hf),
        pushFrame_bump]
    · rw [pushFrame_append_unbuffered _ hf, pushFrame_append_unbuffered _ (hitems.trans hf),
        pushFrame_bump]

@[simp] theorem length_pushFrame (w : Writer) (f : Frame) :
    (w.pushFrame f).frames.length = w.frames.length + 1 := rfl

end Writer

/-! ### Opening and closing -/

section

variable {o : Options} {w : Writer}

theorem openFrame_of_le {m : Major} {n : Option Nat} {isMap : Bool}
    (h : o.maxDepth ≤ w.frames.length) :
    openFrame o m n isMap w = .error (nestingError o) w := by
  rw [openFrame, if_pos h]

/-- A definite array is written as it comes. -/
theorem openFrame_sized (hdet : o.deterministic = true) (hd : w.frames.length < o.maxDepth)
    {n : Nat} :
    openFrame o .array (some n) false w =
      .ok () ((w.append (makeHead .array n)).pushFrame { isMap := false }) := by
  rw [openFrame, if_neg (not_le.2 hd), if_pos hdet]
  rfl

/-- An unsized array and a map wait for their end. -/
theorem openFrame_buffered
    (hdet : o.deterministic = true) (hd : w.frames.length < o.maxDepth) {m : Major} {n : Option Nat}
    {isMap : Bool} (h : isMap = true ∨ n = none) :
    openFrame o m n isMap w = .ok () (w.pushFrame { isMap, buffered := true }) := by
  rw [openFrame, if_neg (not_le.2 hd), if_pos hdet]
  rcases h with rfl | rfl
  · rfl
  · cases isMap <;> rfl

theorem close_sized {f : Frame} (hf : f.buffered = false) (hi : f.indefinite = false) :
    close (w.pushFrame f) = .ok () w := by
  simp [close, Writer.pushFrame, hf, hi]

theorem close_array {f : Frame} (hf : f.buffered = true) (hi : f.indefinite = false)
    (hm : f.isMap = false) :
    close (w.pushFrame f) = .ok () (w.append (makeHead .array f.items ++ f.body)) := by
  simp [close, Writer.pushFrame, hf, hi, hm]

theorem close_map {f : Frame} (hf : f.buffered = true) (hi : f.indefinite = false)
    (hm : f.isMap = true) :
    close (w.pushFrame f) =
      if hasRepeat (sortSlices (slices f.body f.entries)) then .error duplicateError w
      else .ok () (w.append (makeHead .map (sortSlices (slices f.body f.entries)).length ++
        (sortSlices (slices f.body f.entries)).flatMap Slice.whole)) := by
  simp [close, Writer.pushFrame, hf, hi, hm]

end

/-! ### The entries of a map -/

/-- Where the entries with these keys and values lie, from offset `p`. -/
def extents : Nat → List (Bytes × Bytes) → List Entry
  | _, [] => []
  | p, (k, v) :: kvs => ⟨p, p + k.length⟩ :: extents (p + k.length + v.length) kvs

/-- Entries as they are written one after the other. -/
def entryBytes (kvs : List (Bytes × Bytes)) : Bytes := kvs.flatMap fun kv => kv.1 ++ kv.2

def sliceOf (kv : Bytes × Bytes) : Slice := ⟨kv.1, kv.1 ++ kv.2⟩

theorem span_append (a b c : Bytes) : span (a ++ (b ++ c)) a.length (a.length + b.length) = b := by
  rw [span, List.drop_left, Nat.add_sub_cancel_left, List.take_left]

theorem slices_cons (body : Bytes) (e : Entry) (es : List Entry) :
    slices body (e :: es) =
      ⟨span body e.start e.keyEnd, span body e.start
        (match es with
        | [] => body.length
        | e' :: _ => e'.start)⟩ :: slices body es := by
  cases es <;> rfl

/-- The extents recover the entries. -/
theorem slices_extents (pre : Bytes) (kvs : List (Bytes × Bytes)) :
    slices (pre ++ entryBytes kvs) (extents pre.length kvs) = kvs.map sliceOf := by
  induction kvs generalizing pre with
  | nil => rfl
  | cons kv kvs ih =>
    obtain ⟨k, v⟩ := kv
    have hbody : pre ++ entryBytes ((k, v) :: kvs) = (pre ++ (k ++ v)) ++ entryBytes kvs := by
      simp [entryBytes]
    have hkey : span (pre ++ entryBytes ((k, v) :: kvs)) pre.length (pre.length + k.length) =
      k := by
      rw [show pre ++ entryBytes ((k, v) :: kvs) =
        pre ++ (k ++ (v ++ entryBytes kvs)) by simp [entryBytes],
        span_append]
    have hwhole : span (pre ++ entryBytes ((k, v) :: kvs)) pre.length (pre ++ (k ++ v)).length =
      k ++ v := by
      rw [hbody, List.append_assoc, List.length_append, span_append]
    have hnext : (match extents (pre.length + k.length + v.length) kvs with
        | [] => (pre ++ entryBytes ((k, v) :: kvs)).length
        | e :: _ => e.start) = (pre ++ (k ++ v)).length := by
      cases kvs with
      | nil => simp [extents, entryBytes]
      | cons kv kvs =>
        obtain ⟨k', v'⟩ := kv
        have hlen : (pre ++ (k ++ v)).length = pre.length + k.length + v.length := by
          rw [List.length_append, List.length_append, Nat.add_assoc]
        rw [hlen]
        rfl
    have ih' := ih (pre ++ (k ++ v))
    rw [← hbody, List.length_append, List.length_append, ← Nat.add_assoc] at ih'
    rw [extents, slices_cons, hkey, hnext, hwhole, List.map_cons, ih']
    rfl

theorem sortSlices_map {α : Type} (f : α → Bytes × Bytes) (xs : List α) :
    sortSlices ((xs.map f).map sliceOf) =
      ((xs.insertionSort fun a b => (f a).1 ≤ (f b).1).map f).map sliceOf := by
  rw [sortSlices, List.map_map, List.map_map]
  exact (List.map_insertionSort (fun a b => (f a).1 ≤ (f b).1) (fun a b : Slice => a.key ≤ b.key)
    (sliceOf ∘ f) xs fun a _ b _ => Iff.rfl).symm

theorem pairwise_of_not_repeat {s : List Slice} (hs : s.Pairwise fun a b => a.key ≤ b.key)
    (h : hasRepeat s = false) : s.Pairwise fun a b => a.key < b.key := by
  induction s with
  | nil => exact .nil
  | cons a s ih =>
    cases s with
    | nil => exact List.pairwise_singleton _ _
    | cons b s =>
      rw [hasRepeat, Bool.or_eq_false_iff, decide_eq_false_iff_not] at h
      rw [List.pairwise_cons] at hs
      have hab : a.key < b.key := lt_of_le_of_ne (hs.1 b List.mem_cons_self) h.1
      refine List.pairwise_cons.2 ⟨fun c hc => ?_, ih hs.2 h.2⟩
      rcases List.mem_cons.1 hc with rfl | hc
      · exact hab
      · exact lt_of_lt_of_le hab ((List.pairwise_cons.1 hs.2).1 c hc)

theorem not_repeat_of_pairwise {s : List Slice} (hs : s.Pairwise fun a b => a.key < b.key) :
    hasRepeat s = false := by
  induction s with
  | nil => rfl
  | cons a s ih =>
    cases s with
    | nil => rfl
    | cons b s =>
      rw [List.pairwise_cons] at hs
      rw [hasRepeat, ih hs.2, Bool.or_false, decide_eq_false_iff_not]
      exact ne_of_lt (hs.1 b List.mem_cons_self)

end VCodec.Cbor
