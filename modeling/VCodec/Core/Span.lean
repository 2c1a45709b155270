import VCodec.Core.Build

/-!
# What construction passes over

A successful construction of any type moves the reader over exactly one value. What a value is, is
the format's: `SpanLaws` lists what a format has to say about its reader, and `passes_decodeValue`
carries it through the type-directed recursion. A container is begun, then filled value by value
until its cursor ends it, so the laws speak of the place where the container began, the cursor and
the place reached.
-/

namespace VCodec

open D
open Run (ite_eq_ok)

/-! ### Runs on an object that return -/

namespace D

variable {σ S M α β : Type} {b b' : Build σ} {a : α}

@[simp] theorem call_eq_ok {m : EStateM Error σ α} :
    call m b = .ok a b' ↔ ∃ s, m b.reader = .ok a s ∧ b' = { b with reader := s } := by
  unfold call
  cases m b.reader <;> simp [eq_comm]

@[simp] theorem fail_ne_ok {e : Error} : ¬ (fail e : D σ α) b = .ok a b' := by
  simp [fail]

@[simp] theorem throw_ne_ok {x : Abort} : ¬ (throw x : D σ α) b = .ok a b' := by
  simp

@[simp] theorem pure_eq_ok {a' : α} : (pure a' : D σ α) b = .ok a b' ↔ a' = a ∧ b = b' := by
  simp

@[simp] theorem getReader_eq_ok {s : σ} : getReader b = .ok s b' ↔ b.reader = s ∧ b = b' := by
  simp [getReader]

@[simp] theorem modifyReader_eq_ok {f : σ → σ} {u : Unit} :
    modifyReader f b = .ok u b' ↔ { b with reader := f b.reader } = b' := by
  simp [modifyReader]

@[simp] theorem getOut_eq_ok {v : Val} : getOut b = .ok v b' ↔ b.out = v ∧ b = b' := by
  simp [getOut]

@[simp] theorem setOut_eq_ok {v : Val} {u : Unit} :
    setOut v b = .ok u b' ↔ { b with out := v } = b' := by
  simp [setOut]

@[simp] theorem focus_eq_ok {get : Val → Val} {put : Val → Val → Val} {m : D σ α} :
    focus get put m b = .ok a b' ↔
      ∃ b₁, m { b with out := get b.out } = .ok a b₁ ∧
        b' = { b₁ with out := put b.out b₁.out } := by
  unfold focus
  cases m { b with out := get b.out } <;> simp [eq_comm]

@[simp] theorem onLocal_eq_ok {v w : Val} {m : D σ Unit} :
    onLocal v m b = .ok w b' ↔
      ∃ b₁, m { b with out := v } = .ok () b₁ ∧ w = b₁.out ∧ b' = { b₁ with out := b.out } := by
  unfold onLocal
  cases m { b with out := v } <;> simp [eq_comm]

@[simp] theorem mapError_eq_ok {f : Error → Error} {m : D σ α} :
    mapError f m b = .ok a b' ↔ m b = .ok a b' :=
  Run.mapError_eq_ok

@[simp] theorem attempt_eq_ok {m : EStateM Error σ α} {x : Option α} :
    attempt m b = .ok x b' ↔
      (∃ a s, m b.reader = .ok a s ∧ x = some a ∧ b' = { b with reader := s }) ∨
        ∃ e s, m b.reader = .error e s ∧ x = none ∧ b' = { b with reader := s } := by
  unfold attempt
  cases m b.reader <;> simp [eq_comm]

/-- A step of the path changes no more of a successful run than the collected errors. -/
theorem inStep_ok {r : Reader σ S M} {step : Error → Error} {m : D σ α}
    (h : inStep r step m b = .ok a b') :
    ∃ b₁, m b = .ok a b₁ ∧ b'.out = b₁.out ∧
      (b'.reader = b₁.reader ∨ ∃ es, b'.reader = r.setCollected es b₁.reader) := by
  unfold inStep at h
  cases hm : mapError step m b with
  | error e b₁ =>
    rw [hm] at h
    cases h
  | ok a₁ b₁ =>
    rw [hm] at h
    rw [mapError_eq_ok] at hm
    cases hmode : r.errors with
    | failFast =>
      simp only [hmode] at h
      cases h
      exact ⟨b', hm, rfl, .inl rfl⟩
    | collect =>
      simp only [hmode] at h
      cases h
      exact ⟨b₁, hm, rfl, .inr ⟨_, rfl⟩⟩

end D

/-! ### Laws of a format -/

/-- What a format says about the places its reader moves between. `Same` is one place exactly,
`Place` one place up to blanks before the next token; `Value s t` says that one value stands between
`s` and `t`. The other relations start at the place where a container begins. -/
structure SpanLaws {σ S M : Type} (r : Reader σ S M) where
  Same : σ → σ → Prop
  Place : σ → σ → Prop
  Value : σ → σ → Prop
  InSeq : σ → S → σ → Prop
  InMap : σ → M → σ → Prop
  AtKey : σ → M → σ → Prop
  AtValue : σ → M → σ → Prop
  same_refl : ∀ s, Same s s
  same_trans : ∀ {s t u}, Same s t → Same t u → Same s u
  same_place : ∀ {s t}, Same s t → Place s t
  place_trans : ∀ {s t u}, Place s t → Place t u → Place s u
  place_value : ∀ {s t u}, Place s t → Value t u → Value s u
  value_same : ∀ {s t u}, Value s t → Same t u → Value s u
  setCollected : ∀ es s, Same s (r.setCollected es s)
  offset : ∀ {s n t}, r.offset s = .ok n t → Place s t
  peek : ∀ {s k t}, r.peek s = .ok k t → Place s t
  keyKind : ∀ {s k t}, r.keyKind s = .ok k t → Place s t
  expectNull : ∀ {s u t}, r.expectNull s = .ok u t → Value s t
  expectBoolean : ∀ {s x t}, r.expectBoolean s = .ok x t → Value s t
  expectUint : ∀ {f s n t}, r.expectUint f s = .ok n t → Value s t
  expectSint : ∀ {f s n t}, r.expectSint f s = .ok n t → Value s t
  expectReal : ∀ {s x t}, r.expectReal s = .ok x t → Value s t
  expectText : ∀ {s x t}, r.expectText s = .ok x t → Value s t
  expectBytes : ∀ {f s x t}, r.expectBytes f s = .ok x t → Value s t
  expectTags : ∀ {ts s u t v}, r.expectTags ts s = .ok u t → Value t v → Value s v
  readRange : ∀ {t b handled b'}, r.readRange t b = .ok handled b' →
    if handled then Value b.reader b'.reader else Same b.reader b'.reader
  skipValue : ∀ {s u t}, r.skipValue s = .ok u t → Value s t
  expectArray : ∀ {s c t}, r.expectArray s = .ok c t → InSeq s c t
  next_more : ∀ {s c t c' u v}, InSeq s c t → r.next c t = .ok (true, c') u → Value u v →
    InSeq s c' v
  next_done : ∀ {s c t c' u}, InSeq s c t → r.next c t = .ok (false, c') u → Value s u
  expectMap : ∀ {s c t}, r.expectMap s = .ok c t → InMap s c t
  nextKey_more : ∀ {s c t c' u}, InMap s c t → r.nextKey c t = .ok (true, c') u → AtKey s c' u
  nextKey_done : ∀ {s c t c' u}, InMap s c t → r.nextKey c t = .ok (false, c') u → Value s u
  key_place : ∀ {s c t u}, AtKey s c t → Place t u → AtKey s c u
  keyText : ∀ {s c t k u}, AtKey s c t → r.keyText t = .ok k u → AtValue s c u
  keyUint : ∀ {s c t k u}, AtKey s c t → r.keyUint t = .ok k u → AtValue s c u
  keySint : ∀ {s c t k u}, AtKey s c t → r.keySint t = .ok k u → AtValue s c u
  value_entry : ∀ {s c t u}, AtValue s c t → Value t u → InMap s c u
  /-- A saved place is found again: before a map, at the value of an entry, behind a map. -/
  restore_map : ∀ {s t c u}, Place s t → r.expectMap t = .ok c u →
    ∀ v, Same s (r.restore (r.save s) v)
  restore_value : ∀ {s c t}, AtValue s c t → ∀ v, Same t (r.restore (r.save t) v)
  restore_end : ∀ {s c t u}, r.expectMap s = .ok c t → Value s u →
    ∀ v, Same u (r.restore (r.save u) v)

namespace SpanLaws

variable {σ S M α : Type} {env : Env} {r : Reader σ S M} (L : SpanLaws r)

/-- A run that returns has passed one value. -/
def Passes (m : D σ α) : Prop := ∀ b a b', m b = .ok a b' → L.Value b.reader b'.reader

variable {L}

theorem passes_call {m : EStateM Error σ α} (h : ∀ {s a t}, m s = .ok a t → L.Value s t) :
    L.Passes (call m) := by
  intro b a b' hrun
  obtain ⟨s, hs, rfl⟩ := call_eq_ok.1 hrun
  exact h hs

theorem Passes.inStep {step : Error → Error} {m : D σ α} (h : L.Passes m) :
    L.Passes (inStep r step m) := by
  intro b a b' hrun
  obtain ⟨b₁, hm, -, heq | ⟨es, heq⟩⟩ := inStep_ok hrun
  · rw [heq]
    exact h _ _ _ hm
  · rw [heq]
    exact L.value_same (h _ _ _ hm) (L.setCollected es b₁.reader)

theorem Passes.focus {get : Val → Val} {put : Val → Val → Val} {m : D σ α} (h : L.Passes m) :
    L.Passes (focus get put m) := by
  intro b a b' hrun
  obtain ⟨b₁, hm, rfl⟩ := focus_eq_ok.1 hrun
  exact h { b with out := get b.out } a b₁ hm

theorem Passes.onLocal {v : Val} {m : D σ Unit} (h : L.Passes m) : L.Passes (onLocal v m) := by
  intro b a b' hrun
  obtain ⟨b₁, hm, -, rfl⟩ := onLocal_eq_ok.1 hrun
  exact h { b with out := v } () b₁ hm

/-! ### Scalars, strings and bytes -/

theorem passes_decodeUint (f : FieldMeta) (k : IntTy) : L.Passes (decodeUint env r f k) := by
  intro b i b' h
  simp only [decodeUint, Run.bind_eq_ok, call_eq_ok, mapError_eq_ok, ite_eq_ok, fail_ne_ok,
    and_false, false_or,
    pure_eq_ok] at h
  obtain ⟨_, _, ⟨s₁, hoff, rfl⟩, _, _, ⟨s₂, hu, rfl⟩, -, -, rfl⟩ := h
  exact L.place_value (L.offset hoff) (L.expectUint hu)

theorem passes_decodeSint (f : FieldMeta) (k : IntTy) : L.Passes (decodeSint env r f k) := by
  intro b i b' h
  simp only [decodeSint, Run.bind_eq_ok, call_eq_ok, mapError_eq_ok, ite_eq_ok, fail_ne_ok,
    and_false, false_or,
    pure_eq_ok] at h
  obtain ⟨_, _, ⟨s₁, hoff, rfl⟩, _, _, ⟨s₂, hu, rfl⟩, -, -, rfl⟩ := h
  exact L.place_value (L.offset hoff) (L.expectSint hu)

theorem passes_decodeInt (f : FieldMeta) (k : IntTy) : L.Passes (decodeInt env r f k) := by
  unfold decodeInt
  split
  · exact passes_decodeSint f k
  · exact passes_decodeUint f k

theorem passes_decodeEnum (f : FieldMeta) (e : EnumDef) : L.Passes (decodeEnum env r f e) := by
  intro b u b' h
  simp only [decodeEnum, Run.bind_eq_ok, call_eq_ok, ite_eq_ok] at h
  obtain ⟨_, _, ⟨s₁, hoff, rfl⟩, ⟨-, raw, b₁, hraw, h⟩ | ⟨-, t, b₁, ⟨s₂, ht, rfl⟩, h⟩⟩ := h
  · have hvalue : L.Value _ b₁.reader := passes_decodeInt f e.underlying _ _ _ hraw
    cases hfind : e.enumerators.find? (fun en => en.value = raw ∧ ¬ en.skipped) with
    | none => simp only [hfind, fail_ne_ok] at h
    | some en =>
      simp only [hfind, setOut_eq_ok] at h
      subst h
      exact L.place_value (L.offset hoff) hvalue
  · cases hfind : e.find t.text with
    | none => simp only [hfind, fail_ne_ok] at h
    | some en =>
      simp only [hfind, setOut_eq_ok] at h
      subst h
      exact L.place_value (L.offset hoff) (L.expectText ht)

theorem passes_decodeString (f : FieldMeta) (view : Bool) :
    L.Passes (decodeString env r f view) := by
  intro b u b' h
  simp only [decodeString, Run.bind_eq_ok, call_eq_ok, ite_eq_ok, fail_ne_ok, and_false, false_or,
    setOut_eq_ok] at h
  obtain ⟨_, _, ⟨s₁, hoff, rfl⟩, t, _, ⟨s₂, ht, rfl⟩, -, rfl⟩ := h
  exact L.place_value (L.offset hoff) (L.expectText ht)

theorem passes_decodeChar : L.Passes (decodeChar r) := by
  intro b u b' h
  simp only [decodeChar, Run.bind_eq_ok, call_eq_ok] at h
  obtain ⟨_, _, ⟨s₁, hoff, rfl⟩, t, _, ⟨s₂, ht, rfl⟩, h⟩ := h
  have hreader : b'.reader = s₂ := by
    match htext : t.text with
    | [c] =>
      simp only [htext, setOut_eq_ok] at h
      rw [← h]
    | [] => simp only [htext, fail_ne_ok] at h
    | _ :: _ :: _ => simp only [htext, fail_ne_ok] at h
  rw [hreader]
  exact L.place_value (L.offset hoff) (L.expectText ht)

theorem passes_decodeBytes (f : FieldMeta) (t : Ty) : L.Passes (decodeBytes env r f t) := by
  intro b u b' h
  simp only [decodeBytes, Run.bind_eq_ok, call_eq_ok, ite_eq_ok, fail_ne_ok, and_false, false_or,
    or_false,
    setOut_eq_ok] at h
  obtain ⟨_, _, ⟨s₁, hoff, rfl⟩, x, _, ⟨s₂, hx, rfl⟩, -, -, rfl⟩ := h
  exact L.place_value (L.offset hoff) (L.expectBytes hx)

theorem passes_decodeOptional {dec : D σ Unit} (hdec : L.Passes dec) (t : Ty) :
    L.Passes (decodeOptional env r dec t) := by
  intro b u b' h
  simp only [decodeOptional, Run.bind_eq_ok, call_eq_ok, ite_eq_ok, setOut_eq_ok] at h
  obtain ⟨_, _, ⟨s₁, hpeek, rfl⟩, ⟨-, _, _, ⟨s₂, hnull, rfl⟩, rfl⟩ | ⟨-, _, _, rfl, hrun⟩⟩ := h
  · exact L.place_value (L.peek hpeek) (L.expectNull hnull)
  · exact L.place_value (L.peek hpeek) (hdec.focus _ _ _ hrun)

theorem passes_decodeTime (f : FieldMeta) (d : Duration) : L.Passes (decodeTime env r f d) := by
  intro b u b' h
  simp only [decodeTime, Run.bind_eq_ok, call_eq_ok, ite_eq_ok, setOut_eq_ok] at h
  obtain ⟨-, _, _, ⟨s₁, hoff, rfl⟩, t, _, ⟨s₂, ht, rfl⟩, h⟩ | ⟨-, _, _, ⟨s₁, hpeek, rfl⟩, h⟩ := h
  · cases hparse : env.parseTime t.text with
    | none => simp only [hparse, fail_ne_ok] at h
    | some secs =>
      simp only [hparse, setOut_eq_ok] at h
      subst h
      exact L.place_value (L.offset hoff) (L.expectText ht)
  · obtain ⟨-, _, _, ⟨s₂, hi, rfl⟩, rfl⟩ | ⟨-, _, _, ⟨s₂, hx, rfl⟩, rfl⟩ := h
    · exact L.place_value (L.peek hpeek) (L.expectSint hi)
    · exact L.place_value (L.peek hpeek) (L.expectReal hx)

/-! ### Arrays -/

theorem sequenceLoop_ok {dec : D σ Unit} (hdec : L.Passes dec) {kind : SeqKind} {t : Ty}
    {fuel i : Nat} {c : S} {s : σ} {b b' : Build σ} {u : Unit} (hin : L.InSeq s c b.reader)
    (h : sequenceLoop env r dec kind t fuel c i b = .ok u b') : L.Value s b'.reader := by
  induction fuel generalizing c i b with
  | zero => exact absurd h throw_ne_ok
  | succ fuel ih =>
    simp only [sequenceLoop, Run.bind_eq_ok, call_eq_ok, ite_eq_ok, getOut_eq_ok, setOut_eq_ok,
      pure_eq_ok] at h
    obtain ⟨⟨more, c'⟩, _, ⟨s₁, hnext, rfl⟩, h⟩ := h
    obtain ⟨hmore, v, b₁, hv, _, _, ⟨-, rfl⟩, _, _, rfl, h⟩ | ⟨hmore, -, rfl⟩ := h
    · obtain rfl : more = true := hmore
      have hvalue := hdec.inStep.onLocal _ _ _ hv
      exact ih (by exact L.next_more hin hnext hvalue) h
    · obtain rfl : more = false := by simpa using hmore
      exact L.next_done hin hnext

theorem passes_decodeSequence
    {dec : D σ Unit} (hdec : L.Passes dec) (fuel : Nat) (kind : SeqKind) (t : Ty) :
    L.Passes (decodeSequence env r fuel dec kind t) := by
  intro b u b' h
  simp only [decodeSequence, Run.bind_eq_ok, call_eq_ok, setOut_eq_ok] at h
  obtain ⟨c, _, ⟨s₁, hc, rfl⟩, _, _, rfl, h⟩ := h
  exact sequenceLoop_ok hdec (L.expectArray hc) h

theorem elementsLoop_ok {dec : Ty → D σ Unit} (hdec : ∀ t, L.Passes (dec t))
    {off n i : Nat} {ts : List Ty} {c c' : S} {s : σ} {b b' : Build σ} (hin : L.InSeq s c b.reader)
    (h : elementsLoop r dec off n ts i c b = .ok c' b') :
    L.InSeq s c' b'.reader := by
  induction ts generalizing c i b with
  | nil =>
    simp only [elementsLoop, pure_eq_ok] at h
    obtain ⟨rfl, rfl⟩ := h
    exact hin
  | cons t ts ih =>
    simp only [elementsLoop, Run.bind_eq_ok, call_eq_ok, ite_eq_ok, fail_ne_ok, and_false,
      or_false] at h
    obtain ⟨⟨more, c₁⟩, _, ⟨s₁, hnext, rfl⟩, hmore, _, b₁, hv, h⟩ := h
    obtain rfl : more = true := hmore
    exact ih (L.next_more hin hnext ((hdec t).inStep.focus _ _ _ hv)) h

theorem passes_decodeElements {dec : Ty → D σ Unit} (hdec : ∀ t, L.Passes (dec t))
    (fuel : Nat) (ts : List Ty) :
    L.Passes (decodeElements r fuel dec ts) := by
  intro b u b' h
  simp only [decodeElements, Run.bind_eq_ok, call_eq_ok, ite_eq_ok, fail_ne_ok, exists_false,
    and_false, false_or,
    pure_eq_ok] at h
  obtain ⟨off, _, ⟨s₁, hoff, rfl⟩, c, _, ⟨s₂, hc, rfl⟩, c', b₁, hloop, ⟨more, c''⟩, _,
    ⟨s₃, hnext, rfl⟩, hmore, -, rfl⟩ := h
  have hin := elementsLoop_ok hdec (L.expectArray hc) hloop
  obtain rfl : more = false := by simpa using hmore
  exact L.place_value (L.offset hoff) (L.next_done hin hnext)

/-! ### Maps -/

theorem parseIntegralKey_ok {k : IntTy} {text : Bytes} {off : Nat} {i : Int} {b b' : Build σ}
    (h : parseIntegralKey env r k text off b = .ok i b') : b = b' := by
  unfold parseIntegralKey at h
  match hchars : fromChars k text with
  | .value i [] =>
    simp only [hchars, pure_eq_ok] at h
    exact h.2
  | .value i (_ :: _) => simp only [hchars, fail_ne_ok] at h
  | .outOfRange => simp only [hchars, fail_ne_ok] at h
  | .invalid => simp only [hchars, fail_ne_ok] at h

theorem decodeKey_ok {f : FieldMeta} {m : Ty} {off : Nat} {kt : KeyTy} {k : Key} {s : σ} {c : M}
    {b b' : Build σ} (hat : L.AtKey s c b.reader) (h : decodeKey env r f m off kt b = .ok k b') :
    L.AtValue s c b'.reader := by
  cases kt with
  | text view =>
    simp only [decodeKey, Run.bind_eq_ok, call_eq_ok, ite_eq_ok, fail_ne_ok, and_false, false_or,
      pure_eq_ok] at h
    obtain ⟨t, _, ⟨s₁, ht, rfl⟩, -, -, rfl⟩ := h
    exact L.keyText hat ht
  | int k =>
    simp only [decodeKey, Run.bind_eq_ok, call_eq_ok, ite_eq_ok, fail_ne_ok, and_false, false_or,
      pure_eq_ok] at h
    obtain ⟨kind, _, ⟨s₁, hkind, rfl⟩, h⟩ := h
    have hat' := L.key_place hat (L.keyKind hkind)
    obtain ⟨-, t, _, ⟨s₂, ht, rfl⟩, i, b₁, hi, -, rfl⟩ |
      ⟨-, ⟨-, u, _, ⟨s₂, hu, rfl⟩, -, -, rfl⟩ | ⟨-, i, _, ⟨s₂, hi, rfl⟩, -, -, rfl⟩⟩ := h
    · rw [← parseIntegralKey_ok hi]
      exact L.keyText hat' ht
    · exact L.keyUint hat' hu
    · exact L.keySint hat' hi

theorem passes_mapEntry {dec : D σ Unit} (hdec : L.Passes dec) (kind : MapKind) (t : Ty) (off : Nat)
    (key : Key) (es : List (Key × Val)) : L.Passes (mapEntry env r dec kind t off key es) := by
  intro b u b' h
  unfold mapEntry at h
  cases hrep : repeated kind key es with
  | none =>
    simp only [hrep, Run.bind_eq_ok, setOut_eq_ok] at h
    obtain ⟨v, b₁, hval, rfl⟩ := h
    have hvalue := hdec.inStep.onLocal _ _ _ hval
    exact hvalue
  | some i =>
    cases hdup : r.duplicates with
    | error => simp only [hrep, hdup, fail_ne_ok] at h
    | firstWins =>
      simp only [hrep, hdup] at h
      exact passes_call L.skipValue _ _ _ h
    | lastWins =>
      simp only [hrep, hdup] at h
      exact hdec.inStep.focus _ _ _ h

theorem mapLoop_ok {dec : D σ Unit} (hdec : L.Passes dec) {f : FieldMeta} {kind : MapKind}
    {kt : KeyTy} {t : Ty} {fuel : Nat} {c : M} {s : σ} {b b' : Build σ} {u : Unit}
    (hin : L.InMap s c b.reader) (h : mapLoop env r dec f kind kt t fuel c b = .ok u b') :
    L.Value s b'.reader := by
  induction fuel generalizing c b with
  | zero => exact absurd h throw_ne_ok
  | succ fuel ih =>
    simp only [mapLoop, Run.bind_eq_ok, call_eq_ok, ite_eq_ok, getOut_eq_ok, pure_eq_ok] at h
    obtain ⟨⟨more, c'⟩, _, ⟨s₁, hnext, rfl⟩, h⟩ := h
    obtain ⟨hmore, off, _, ⟨s₂, hoff, rfl⟩, key, b₁, hkey, out, _, ⟨-, rfl⟩, _, b₂, hval,
      h⟩ | ⟨hmore, -, rfl⟩ := h
    · obtain rfl : more = true := hmore
      have hat := decodeKey_ok (L.key_place (L.nextKey_more hin hnext) (L.offset hoff)) hkey
      exact ih (L.value_entry hat (passes_mapEntry hdec _ _ _ _ _ _ _ _ hval)) h
    · obtain rfl : more = false := by simpa using hmore
      exact L.nextKey_done hin hnext

theorem passes_decodeMap {dec : D σ Unit} (hdec : L.Passes dec) (fuel : Nat) (f : FieldMeta)
    (kind : MapKind) (kt : KeyTy) (t : Ty) : L.Passes (decodeMap env r fuel dec f kind kt t) := by
  intro b u b' h
  simp only [decodeMap, Run.bind_eq_ok, call_eq_ok, setOut_eq_ok] at h
  obtain ⟨c, _, ⟨s₁, hc, rfl⟩, _, _, rfl, h⟩ := h
  exact mapLoop_ok hdec (L.expectMap hc) h

/-! ### Members -/

theorem passes_decodeBulk {dec : D σ Unit} (hdec : L.Passes dec) (f : FieldMeta) (t : Ty) :
    L.Passes (decodeBulk r dec f t) := by
  intro b u b' h
  simp only [decodeBulk, ite_eq_ok, Run.bind_eq_ok, pure_eq_ok] at h
  obtain ⟨-, handled, b₁, hrange, ⟨hh, -, rfl⟩ | ⟨hh, h⟩⟩ | ⟨-, h⟩ := h
  · have hspan := L.readRange hrange
    rw [if_pos hh] at hspan
    exact hspan
  · have hspan := L.readRange hrange
    rw [if_neg hh] at hspan
    exact L.place_value (L.same_place hspan) (hdec _ _ _ h)
  · exact hdec _ _ _ h

/-- Expected tags belong to the value behind them. -/
theorem decodeTags_ok {f : FieldMeta} {tags : List Nat} {b b' : Build σ} {u : Unit} {s : σ}
    (h : decodeTags r f tags b = .ok u b') (hvalue : L.Value b'.reader s) : L.Value b.reader s := by
  simp only [decodeTags, ite_eq_ok, pure_eq_ok, mapError_eq_ok, call_eq_ok] at h
  obtain ⟨-, -, rfl⟩ | ⟨-, s₁, hs₁, rfl⟩ := h
  · exact hvalue
  · exact L.expectTags hs₁ hvalue

theorem passes_decodeFieldValue {dec : Ty → D σ Unit} (hdec : ∀ t, L.Passes (dec t))
    (f : FieldMeta) (t : Ty) :
    L.Passes (decodeFieldValue env r dec f t) := by
  fun_induction decodeFieldValue env r dec f t with
  | case1 t ih => exact passes_decodeOptional ih t
  | case2 t h =>
    intro b u b' hrun
    rw [Run.bind_eq_ok] at hrun
    obtain ⟨_, b₁, htags, hrun⟩ := hrun
    exact decodeTags_ok htags (passes_decodeBulk (hdec t) f t _ _ _ hrun)

/-! ### Structs -/

theorem entryKeyKind_ok {d : StructDef} {k : Kind} {s : σ} {c : M} {b b' : Build σ}
    (hat : L.AtKey s c b.reader) (h : entryKeyKind r d b = .ok k b') : L.AtKey s c b'.reader := by
  simp only [entryKeyKind, ite_eq_ok, call_eq_ok, pure_eq_ok] at h
  obtain ⟨-, s₁, hs₁, rfl⟩ | ⟨-, -, rfl⟩ := h
  · exact L.key_place hat (L.keyKind hs₁)
  · exact hat

theorem readEntryKey_ok {d : StructDef} {k : Except Nat EntryKey} {s : σ} {c : M} {b b' : Build σ}
    (hat : L.AtKey s c b.reader) (h : readEntryKey r d b = .ok k b') : L.AtValue s c b'.reader := by
  simp only [readEntryKey, Run.bind_eq_ok, call_eq_ok, ite_eq_ok, pure_eq_ok] at h
  obtain ⟨kind, b₁, hkind, h⟩ := h
  have hat' := entryKeyKind_ok hat hkind
  obtain ⟨-, u, _, ⟨s₂, hu, rfl⟩, ⟨-, -, rfl⟩ | ⟨-, -, rfl⟩⟩ |
    ⟨-, ⟨-, i, _, ⟨s₂, hi, rfl⟩, -, rfl⟩ | ⟨-, t, _, ⟨s₂, ht, rfl⟩, -, rfl⟩⟩ := h
  · exact L.keyUint hat' hu
  · exact L.keyUint hat' hu
  · exact L.keySint hat' hi
  · exact L.keyText hat' ht

theorem passes_reportKey (e : Error) : L.Passes (reportKey r e) := by
  intro b u b' h
  cases hmode : r.errors with
  | failFast => simp only [reportKey, hmode, fail_ne_ok] at h
  | collect =>
    simp only [reportKey, hmode, Run.bind_eq_ok, collect, modifyReader_eq_ok, call_eq_ok] at h
    obtain ⟨_, _, rfl, s, hs, rfl⟩ := h
    exact L.place_value (L.same_place (L.setCollected _ _)) (L.skipValue hs)

theorem recover_ok {m : D σ Unit} (hm : L.Passes m) {b b' : Build σ} {u : Unit} {s : σ} {c : M}
    (hat : L.AtValue s c b.reader) (h : recover r m b = .ok u b') : L.Value b.reader b'.reader := by
  unfold recover at h
  split at h
  · exact hm _ _ _ h
  · cases hrun : m b with
    | ok a b₁ =>
      rw [hrun] at h
      cases h
      exact hm _ _ _ hrun
    | error e b₁ =>
      rw [hrun] at h
      cases e with
      | rejected => cases h
      | outOfFuel => cases h
      | error e =>
        simp only at h
        split at h
        · cases h
        · simp only [Run.bind_eq_ok, collect, modifyReader_eq_ok, call_eq_ok] at h
          obtain ⟨_, _, rfl, _, _, rfl, t, ht, rfl⟩ := h
          exact L.place_value (L.same_place (L.restore_value hat _)) (L.skipValue ht)

theorem passes_unknownEntry (d : StructDef) (ignoreKey : Bytes) (off : Nat) (key : EntryKey) :
    L.Passes (unknownEntry r d ignoreKey off key) := by
  unfold unknownEntry
  split
  · exact passes_call L.skipValue
  · split
    · exact passes_reportKey _
    · exact passes_call L.skipValue

theorem memberEntry_ok {dec : FieldMeta → Ty → D σ Unit} (hdec : ∀ f t, L.Passes (dec f t))
    {i : Nat} {f : Field} {off : Nat} {key : EntryKey} {seen : List Nat} {b b' : Build σ} {u : Unit}
    {s : σ} {c : M} (hat : L.AtValue s c b.reader)
    (h : memberEntry r dec i f off key seen b = .ok u b') :
    L.Value b.reader b'.reader := by
  have skips : L.Passes (call r.skipValue) := passes_call L.skipValue
  simp only [memberEntry, ite_eq_ok] at h
  obtain ⟨-, h⟩ | ⟨-, ⟨-, h⟩ | ⟨-, ⟨-, h⟩ | ⟨-, h⟩⟩⟩ := h
  · exact skips _ _ _ h
  · exact passes_reportKey _ _ _ _ h
  · exact skips _ _ _ h
  · exact recover_ok (hdec _ _).focus.inStep hat h

theorem structEntry_ok {dec : FieldMeta → Ty → D σ Unit} (hdec : ∀ f t, L.Passes (dec f t))
    {d : StructDef} {ignoreKey : Bytes} {off : Nat} {key : Except Nat EntryKey}
    {seen seen' : List Nat} {b b' : Build σ} {s : σ} {c : M} (hat : L.AtValue s c b.reader)
    (h : structEntry r dec d ignoreKey off seen key b = .ok seen' b') :
    L.InMap s c b'.reader := by
  refine L.value_entry hat ?_
  cases key with
  | error v =>
    simp only [structEntry, bigKeyEntry, Run.bind_eq_ok, call_eq_ok, ite_eq_ok, fail_ne_ok,
      and_false, false_or,
      pure_eq_ok] at h
    obtain ⟨_, _, ⟨_, _, ⟨s₁, hskip, rfl⟩, -, -, rfl⟩, -, rfl⟩ := h
    exact L.skipValue hskip
  | ok key =>
    cases hresolve : d.resolve r key with
    | none =>
      simp only [structEntry, hresolve, Run.bind_eq_ok, pure_eq_ok] at h
      obtain ⟨_, _, h, -, rfl⟩ := h
      exact passes_unknownEntry _ _ _ _ _ _ _ h
    | some i =>
      cases hfield : d.fields[i]? with
      | none => simp only [structEntry, hresolve, hfield, throw_ne_ok] at h
      | some f =>
        simp only [structEntry, hresolve, hfield, Run.bind_eq_ok, pure_eq_ok] at h
        obtain ⟨_, _, h, -, rfl⟩ := h
        exact memberEntry_ok hdec hat h

theorem structLoop_ok {dec : FieldMeta → Ty → D σ Unit} (hdec : ∀ f t, L.Passes (dec f t))
    {d : StructDef} {ignoreKey : Bytes} {fuel : Nat} {c : M} {seen seen' : List Nat}
    {b b' : Build σ} {s : σ} (hin : L.InMap s c b.reader)
    (h : structLoop r dec d ignoreKey fuel c seen b = .ok seen' b') :
    L.Value s b'.reader := by
  induction fuel generalizing c seen b with
  | zero => exact absurd h throw_ne_ok
  | succ fuel ih =>
    simp only [structLoop, Run.bind_eq_ok, call_eq_ok, ite_eq_ok, pure_eq_ok] at h
    obtain ⟨⟨more, c'⟩, _, ⟨s₁, hnext, rfl⟩, h⟩ := h
    obtain ⟨hmore, off, _, ⟨s₂, hoff, rfl⟩, key, b₁, hkey, seen₁, b₂, hentry, h⟩ | ⟨hmore, -,
      rfl⟩ := h
    · obtain rfl : more = true := hmore
      have hat := readEntryKey_ok (L.key_place (L.nextKey_more hin hnext) (L.offset hoff)) hkey
      exact ih (structEntry_ok hdec hat hentry) h
    · obtain rfl : more = false := by simpa using hmore
      exact L.nextKey_done hin hnext

/-- The listing of the keys ends where it began. -/
theorem describePresentKeys_ok {fuel save : Nat} {e e' : Error} {b b' : Build σ}
    (hsave : ∀ t, L.Same b.reader (r.restore (r.save b.reader) t))
    (h : describePresentKeys r fuel save e b = .ok e' b') : L.Same b.reader b'.reader := by
  simp only [describePresentKeys, Run.bind_eq_ok, getReader_eq_ok, modifyReader_eq_ok,
    pure_eq_ok] at h
  obtain ⟨_, _, ⟨rfl, rfl⟩, _, _, -, _, b₂, -, _, _, rfl, -, rfl⟩ := h
  exact hsave b₂.reader

theorem missingMember_ok
    {fuel off save : Nat} {d : StructDef} {i : Nat} {f : Field} {missing missing' : Option Error}
    {b b' : Build σ} (hsave : ∀ t, L.Same b.reader (r.restore (r.save b.reader) t))
    (h : missingMember r fuel d off save i f missing b = .ok missing' b') :
    L.Same b.reader b'.reader := by
  simp only [missingMember, ite_eq_ok] at h
  obtain ⟨-, h⟩ | ⟨-, h⟩ := h
  · cases missing with
    | some e =>
      rw [reportMissing, pure_eq_ok] at h
      rw [← h.2]
      exact L.same_refl _
    | none =>
      rw [reportMissing, Run.bind_eq_ok] at h
      obtain ⟨e, b₁, hdescribe, h⟩ := h
      have hsame := describePresentKeys_ok hsave hdescribe
      cases hmode : r.errors with
      | failFast =>
        simp only [hmode, pure_eq_ok] at h
        rw [← h.2]
        exact hsame
      | collect =>
        simp only [hmode, Run.bind_eq_ok, collect, modifyReader_eq_ok, pure_eq_ok] at h
        obtain ⟨_, _, rfl, -, rfl⟩ := h
        exact L.same_trans hsame (L.setCollected _ _)
  · cases hdefault : f.default with
    | none =>
      simp only [hdefault, pure_eq_ok] at h
      rw [← h.2]
      exact L.same_refl _
    | some v =>
      simp only [hdefault, Run.bind_eq_ok, onItem, focus_eq_ok, setOut_eq_ok, pure_eq_ok] at h
      obtain ⟨_, _, ⟨_, rfl, rfl⟩, -, rfl⟩ := h
      exact L.same_refl _

theorem missingLoop_ok {fuel off save : Nat} {d : StructDef} {seen : List Nat} {fs : List Field}
    {i : Nat} {missing missing' : Option Error} {b b' : Build σ}
    (hsave : ∀ s, L.Same b.reader s → ∀ t, L.Same s (r.restore (r.save s) t))
    (h : missingLoop r fuel d off save seen fs i missing b = .ok missing' b') :
    L.Same b.reader b'.reader := by
  induction fs generalizing i missing b with
  | nil =>
    rw [missingLoop, pure_eq_ok] at h
    rw [← h.2]
    exact L.same_refl _
  | cons f fs ih =>
    simp only [missingLoop, ite_eq_ok, Run.bind_eq_ok] at h
    obtain ⟨-, h⟩ | ⟨-, m, b₁, hmember, h⟩ := h
    · exact ih hsave h
    · have hsame := missingMember_ok (hsave _ (L.same_refl _)) hmember
      exact L.same_trans hsame (ih (fun s hs => hsave s (L.same_trans hsame hs)) h)

theorem passes_decodeMembers {dec : FieldMeta → Ty → D σ Unit} (hdec : ∀ f t, L.Passes (dec f t))
    (fuel : Nat) (d : StructDef) (ignoreKey : Bytes) :
    L.Passes (decodeMembers r fuel dec d ignoreKey) := by
  intro b u b' h
  unfold decodeMembers at h
  simp only [Run.bind_eq_ok, call_eq_ok, getReader_eq_ok] at h
  obtain ⟨off, _, ⟨s₁, hoff, rfl⟩, _, _, ⟨rfl, rfl⟩, c, _, ⟨s₂, hc, rfl⟩, seen, b₁, hloop, missing,
    b₂, hmissing, h⟩ := h
  have hvalue := structLoop_ok hdec (L.expectMap hc) hloop
  have hsame := missingLoop_ok (fun s hs => L.restore_end hc (L.value_same hvalue hs)) hmissing
  split at h
  · exact absurd h fail_ne_ok
  · rw [pure_eq_ok] at h
    rw [← h.2]
    exact L.place_value (L.offset hoff) (L.value_same hvalue hsame)

theorem passes_decodeStruct {dec : FieldMeta → Ty → D σ Unit} (hdec : ∀ f t, L.Passes (dec f t))
    (fuel : Nat) (d : StructDef) (ignoreKey : Bytes) :
    L.Passes (decodeStruct r fuel dec d ignoreKey) := by
  unfold decodeStruct
  split
  · exact (hdec _ _).focus.inStep
  · exact passes_decodeMembers hdec fuel d ignoreKey

/-! ### Variants -/

theorem externalLoop_ok {dec : D σ Unit} (hdec : L.Passes dec) {tagKey : Bytes} {fuel : Nat} {c : M}
    {have₁ have₂ : Bool} {b b' : Build σ} {s : σ} (hin : L.InMap s c b.reader)
    (h : externalLoop r dec tagKey fuel c have₁ b = .ok have₂ b') : L.Value s b'.reader := by
  induction fuel generalizing c have₁ b with
  | zero => exact absurd h throw_ne_ok
  | succ fuel ih =>
    simp only [externalLoop, Run.bind_eq_ok, call_eq_ok, ite_eq_ok, pure_eq_ok] at h
    obtain ⟨⟨more, c'⟩, _, ⟨s₁, hnext, rfl⟩, h⟩ := h
    obtain ⟨hmore, _, _, ⟨s₂, hoff, rfl⟩, t, _, ⟨s₃, ht, rfl⟩, h⟩ | ⟨hmore, -, rfl⟩ := h
    · obtain rfl : more = true := hmore
      have hat := L.keyText (L.key_place (L.nextKey_more hin hnext) (L.offset hoff)) ht
      obtain ⟨-, _, b₁, hval, h⟩ | ⟨-, _, _, ⟨s₄, hskip, rfl⟩, h⟩ := h
      · exact ih (L.value_entry hat (hdec.inStep _ _ _ hval)) h
      · exact ih (L.value_entry hat (L.skipValue hskip)) h
    · obtain rfl : more = false := by simpa using hmore
      exact L.nextKey_done hin hnext

theorem passes_decodeAlternative {dec : Ty → D σ Unit} (hdec : ∀ t, L.Passes (dec t))
    {decStruct : StructDef → Bytes → D σ Unit} (hstruct : ∀ d k, L.Passes (decStruct d k))
    (fuel : Nat) (alts : List (Bytes × Ty)) (tagKey : Bytes) (off i : Nat) (t : Ty) :
    L.Passes (decodeAlternative env r fuel dec decStruct alts tagKey off i t) := by
  intro b u b' h
  cases htag : internallyTagged env t with
  | some d =>
    simp only [decodeAlternative, htag] at h
    exact (hstruct _ _).focus _ _ _ h
  | none =>
    simp only [decodeAlternative, htag, Run.bind_eq_ok, call_eq_ok, ite_eq_ok, fail_ne_ok,
      and_false, or_false,
      pure_eq_ok] at h
    obtain ⟨c, _, ⟨s₁, hc, rfl⟩, _, b₁, hloop, -, -, rfl⟩ := h
    exact externalLoop_ok (hdec _).focus (L.expectMap hc) hloop

theorem passes_decodeVariant {dec : Ty → D σ Unit} (hdec : ∀ t, L.Passes (dec t))
    {decStruct : StructDef → Bytes → D σ Unit} (hstruct : ∀ d k, L.Passes (decStruct d k))
    (fuel : Nat) (f : FieldMeta) (alts : List (Bytes × Ty)) :
    L.Passes (decodeVariant env r fuel dec decStruct f alts) := by
  intro b u b' h
  cases htag : f.tagKey with
  | none => simp only [decodeVariant, htag, throw_ne_ok] at h
  | some tagKey =>
    simp only [decodeVariant, htag, Run.bind_eq_ok, call_eq_ok, getReader_eq_ok, modifyReader_eq_ok,
      setOut_eq_ok] at h
    obtain ⟨_, _, ⟨rfl, rfl⟩, off, _, ⟨s₁, hoff, rfl⟩, c, _, ⟨s₂, hc, rfl⟩, tag, b₁, -, alt, b₂, -,
      _, _, rfl, _, _, rfl, h⟩ := h
    -- the second pass starts where the first one did
    have hback := L.restore_map (L.offset hoff) hc b₂.reader
    exact L.place_value (L.same_place hback)
      (passes_decodeAlternative hdec hstruct _ _ _ _ _ _ _ _ _ h)

/-! ### Every type -/

theorem passes_decodeValue (fuel : Nat) (f : FieldMeta) (t : Ty) :
    L.Passes (decodeValue env r fuel f t) := by
  induction fuel generalizing f t with
  | zero => exact fun _ _ _ h => absurd h throw_ne_ok
  | succ fuel ih =>
    have hfield : ∀ f t, L.Passes (decodeFieldValue env r (decodeValue env r fuel f) f t) :=
      fun f t => passes_decodeFieldValue (ih f) f t
    have assigned : ∀ {α : Type} {m : D σ α} (g : α → Val), L.Passes m →
      L.Passes (do setOut (g (← m))) := by
      intro α m g hm b u b' h
      simp only [Run.bind_eq_ok, setOut_eq_ok] at h
      obtain ⟨a, b₁, ha, rfl⟩ := h
      have hvalue := hm _ _ _ ha
      exact hvalue
    cases t with
    | bool => exact assigned _ (passes_call L.expectBoolean)
    | char => exact passes_decodeChar
    | int k => exact assigned _ (passes_decodeInt f k)
    | float => exact assigned _ (passes_call L.expectReal)
    | double => exact assigned _ (passes_call L.expectReal)
    | enum e => exact passes_decodeEnum f e
    | string view => exact passes_decodeString f view
    | optional t => exact passes_decodeOptional (ih f t) t
    | variant alts =>
      exact passes_decodeVariant (ih noField) (fun d k => passes_decodeStruct hfield fuel d k) fuel
        f alts
    | byteRange r => exact passes_decodeBytes f _
    | map kind kt t => exact passes_decodeMap (ih f t) fuel f kind kt t
    | tuple ts => exact passes_decodeElements (ih f) fuel ts
    | array n t =>
      rw [decodeValue]
      split
      · exact passes_decodeBytes f _
      · exact passes_decodeElements (ih f) fuel _
    | seq kind t =>
      rw [decodeValue]
      split
      · exact passes_decodeBytes f _
      · exact passes_decodeSequence (ih f t) fuel kind t
    | struct id => exact passes_decodeStruct hfield fuel _ _
    | time d =>
      rw [decodeValue]
      split
      · exact passes_decodeTime f d
      · exact fun _ _ _ h => absurd h throw_ne_ok

/-- A successful decode has passed one value. -/
theorem passes_decode (fuel : Nat) (t : Ty) : L.Passes (decode env r fuel t) := by
  intro b u b' h
  unfold decode at h
  cases hm : mapError Error.finalize
    (decodeFieldValue env r (decodeValue env r fuel noField) noField t) b with
  | error e b₁ =>
    rw [hm] at h
    cases h
  | ok a b₁ =>
    rw [hm] at h
    rw [mapError_eq_ok] at hm
    have hvalue : L.Value b.reader b₁.reader :=
      passes_decodeFieldValue (fun t => passes_decodeValue fuel noField t) noField t _ _ _ hm
    cases hmode : r.errors with
    | failFast =>
      simp only [hmode] at h
      cases h
      exact hvalue
    | collect =>
      simp only [hmode] at h
      cases h
      exact L.value_same hvalue (L.setCollected _ _)

end SpanLaws

end VCodec
