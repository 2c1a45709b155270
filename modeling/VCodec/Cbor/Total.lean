import VCodec.Cbor.Cursors
import VCodec.Core.Total

/-!
# Every decode of CBOR ends

An operation that decodes something moves the reader forward within the input, and a saved position
is found again in an input whose positions fit the low half of the saved word.
-/

namespace VCodec.Cbor

variable {o : Options} {inp : Bytes} {n : Nat} {s t : State}

/-- The place is in the input, with less than `n` bytes ahead. -/
def Ahead (inp : Bytes) (n : Nat) (s : State) : Prop := s.pos ≤ inp.length ∧ inp.length - s.pos < n

theorem Spans.ahead (h : Spans o inp s t) (hs : Ahead inp (n + 1) s) : Ahead inp n t := by
  obtain ⟨x, r, -, hin, hpos, -⟩ := h
  have hlen := congrArg List.length hin
  have hx := x.bytes_pos
  have hle := hs.1
  have hlt := hs.2
  rw [List.length_drop, List.length_append] at hlen
  constructor <;> omega

theorem Tagged.ahead (h : Tagged inp s t) (hs : Ahead inp n s) : Ahead inp n t := by
  induction h with
  | same h =>
    unfold Ahead
    rw [h.1]
    exact hs
  | @tag s t u h r hin ht _ ih =>
    have hlen := congrArg List.length hin
    have hle := hs.1
    have hlt := hs.2
    rw [List.length_drop, List.length_append] at hlen
    exact ih ⟨by omega, by omega⟩

theorem ahead_restore (hsize : inp.length < 2 ^ 48) (hs : Ahead inp n s) (t : State) :
    Ahead inp n (t.restore s.save) := by
  have hpos : s.save % 2 ^ 48 = s.pos := saved_pos s.depth (lt_of_le_of_lt hs.1 hsize)
  unfold Ahead State.restore
  rw [hpos]
  exact hs

/-! ### Containers -/

theorem ahead_expectContainer {isMap : Bool} {expected : Bytes} {remaining : Option Nat}
    (h : expectContainer o inp isMap expected s = .ok remaining t) (hs : Ahead inp (n + 1) s) :
    Ahead inp n t := by
  obtain ⟨s₀, count, htagged, hin, -⟩ := expectContainer_ok h
  have hs₀ := htagged.ahead hs
  have hbound := hin.bound
  have hpos := hin.pos
  have hfront : 0 < (frontBytes (containerMajor isMap, count)).length := by
    cases count <;> simp [frontBytes, Head.bytes]
  rw [List.length_append] at hpos
  have hlt := hs₀.2
  constructor <;> omega

theorem ahead_next {c c' : SeqCursor} {more : Bool} (h : SeqCursor.next inp c s = .ok (more, c') t)
    (hs : Ahead inp n s) : Ahead inp n t := by
  have hle := hs.1
  have hlt := hs.2
  unfold SeqCursor.next at h
  split at h
  · cases h
    exact hs
  · split at h
    · cases h
    · cases h
      exact hs
  · split at h
    · cases h
    split at h
    · cases h
      exact ⟨by simp only; omega, by simp only; omega⟩
    · cases h
      exact hs

theorem ahead_keyAhead (hsize : inp.length < 2 ^ 48) {c c' : MapCursor} {more : Bool}
    (h : MapCursor.keyAhead o inp c s = .ok (more, c') t) (hs : Ahead inp n s) : Ahead inp n t := by
  unfold MapCursor.keyAhead at h
  split at h
  · split at h
    · cases h
      exact ahead_restore hsize hs _
    · simp only at h
      split at h
      · cases h
      · cases h
        exact ahead_restore hsize hs _
  · cases h
    exact hs

theorem ahead_nextKey (hsize : inp.length < 2 ^ 48) {c c' : MapCursor} {more : Bool}
    (h : MapCursor.next o inp c s = .ok (more, c') t) (hs : Ahead inp n s) : Ahead inp n t := by
  have hlt := hs.2
  unfold MapCursor.next at h
  split at h
  · cases h
    exact hs
  · split at h
    · cases h
    · exact ahead_keyAhead hsize h hs
  · split at h
    · cases h
    split at h
    · cases h
      exact ⟨by simp only; omega, by simp only; omega⟩
    · exact ahead_keyAhead hsize h hs

/-! ### Typed arrays -/

theorem typedArrayInto_isError
    {env : Env} {tag off : Nat} {bytes : Bytes} {t : Ty} {b b' : Build State} {a : Abort}
    (h : typedArrayInto env tag bytes t off b = .error a b') : a.IsError := by
  unfold typedArrayInto at h
  simp only at h
  split at h
  · cases h
    trivial
  split at h
  · cases h
    trivial
  split at h
  · change fillRange _ _ _ b = _ at h
    unfold fillRange at h
    simp only at h
    split at h
    · cases h
    · cases h
      trivial
  · cases h
    trivial

theorem ends_readRange (env : Env) (t : Ty) :
    VCodec.Ends (Ahead inp (n + 1)) (readRange env o inp t)
      (fun handled => Ahead inp (if handled then n else n + 1)) := by
  intro b hb
  cases hrun : readRange env o inp t b with
  | ok handled b' =>
    have hspan := readRange_ok hrun
    cases handled with
    | true => exact Spans.ahead hspan hb
    | false => exact (Tagged.same hspan).ahead hb
  | error a b' =>
    unfold readRange at hrun
    split at hrun
    · cases hrun
    rcases Run.bind_eq_error.1 hrun with hcall | ⟨range, b₁, -, hrest⟩
    · unfold D.call at hcall
      split at hcall
      · cases hcall
      · cases hcall
        trivial
    · match range with
      | none => cases hrest
      | some (tag, bytes, start) =>
        rcases Run.bind_eq_error.1 hrest with hinto | ⟨_, _, -, hpure⟩
        · exact typedArrayInto_isError hinto
        · cases hpure

/-- The reader is one that construction ends over. -/
def measureLaws (env : Env) (hsize : inp.length < 2 ^ 48) : MeasureLaws (reader env o inp) where
  At := Ahead inp
  not_zero _ h := absurd h.2 (Nat.not_lt_zero _)
  mono hnm h := ⟨h.1, Nat.lt_of_lt_of_le h.2 hnm⟩
  setCollected _ h := h
  restore t h := ahead_restore hsize h t
  offset n s a t hs h := by
    cases h
    exact hs
  peek n s a t hs h := by
    cases h
    exact hs
  keyKind n s a t hs h := by
    cases h
    exact hs
  expectNull n s a t hs h := (spans_expectNull h).ahead hs
  expectBoolean n s a t hs h := (spans_expectBoolean h).ahead hs
  expectUint _ n s a t hs h := (spans_expectUint h).ahead hs
  expectSint _ n s a t hs h := (spans_expectSint h).ahead hs
  expectReal n s a t hs h := (spans_expectReal h).ahead hs
  expectText n s a t hs h := (spans_expectText h).ahead hs
  expectBytes _ n s a t hs h := (spans_expectBytes h).ahead hs
  expectTags ts n s a t hs h := (tagged_expectTags h).ahead hs
  readRange n t := ends_readRange env t
  expectArray n s a t hs h := by
    obtain ⟨remaining, t', hrun, hc⟩ := Run.bind_eq_ok.1 h
    cases hc
    exact ahead_expectContainer hrun hs
  next c n s x t hs h := ahead_next h hs
  expectMap n s a t hs h := by
    obtain ⟨remaining, t', hrun, hc⟩ := Run.bind_eq_ok.1 h
    cases hc
    exact ahead_expectContainer hrun hs
  nextKey c n s x t hs h := ahead_nextKey hsize h hs
  keyText n s a t hs h := (spans_expectText h).ahead hs
  keyUint n s a t hs h := (spans_expectUint h).ahead hs
  keySint n s a t hs h := (spans_expectSint h).ahead hs
  skipValue n s a t hs h := by
    obtain ⟨x, r, hx, hin, rfl⟩ := skipValue_ok_iff.1 h
    exact Spans.ahead ⟨x, r, hx.parsed, hin, rfl, rfl⟩ hs

end VCodec.Cbor
