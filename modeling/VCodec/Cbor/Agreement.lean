import VCodec.Cbor.Strict
import VCodec.Cbor.Typed

/-!
# What the validation of deterministic encoding changes

Two calls of the typed decoder on one input, with the validation on and off. The first returns what
the second returns, or fails with `non_deterministic`, or fails where the second one fails, too.
-/

namespace VCodec.Cbor

variable {o : Options} {inp : Bytes} {env : Env}

/-! ### Operations of the two readers -/

theorem Spans.boundedAfter {α : Type} {m : M α} (h : ∀ {s a t}, m s = .ok a t → Spans o.lax inp s t)
    {s t : State} {a : α}
    (hrun : m s = .ok a t) (hs : Bounded o inp s) : Bounded o inp t :=
  (h hrun).bounded hs

theorem peekFrom_strict (fuel p : Nat) :
    peekFrom o.strict inp fuel p = peekFrom o.lax inp fuel p := by
  induction fuel generalizing p with
  | zero => rfl
  | succ fuel ih =>
    unfold peekFrom
    simp only [ih]
    rfl

theorem peek_strict (s : State) : peek o.strict inp s = peek o.lax inp s := peekFrom_strict _ _

/-- Looking does not move the reader. -/
theorem sim_look {α : Type} {f g : State → α} (h : ∀ s, f s = g s) :
    OpSim (· = .nonDeterministic) (Together o inp) Eq (fun s => .ok (f s) s)
      (fun s => .ok (g s) s) := by
  rintro s _ ⟨rfl, hs⟩
  exact ⟨h s, rfl, hs⟩

theorem lockstep_expectTags (ts : List Nat) :
    Lockstep Eq (expectTags inp ts) (expectTags inp ts) := .refl _

theorem lockstep_rangeBytes : Lockstep Eq (rangeBytes o.strict inp) (rangeBytes o.lax inp) := by
  refine (Lockstep.refl (rawHead inp)).bind_eq fun h => .same_ite (.refl _) ?_
  refine (Lockstep.refl get).bind_eq fun s => ?_
  refine Lockstep.bind_eq ?_ fun _ => .refl _
  rintro s _ rfl
  have hbytes := lockstep_expectBytes o inp (s.advance h.length) _ rfl
  unfold behind
  cases hx : expectBytes o.strict inp (s.advance h.length) with
  | ok a t =>
    cases hy : expectBytes o.lax inp (s.advance h.length) with
    | ok b u =>
      rw [hx, hy] at hbytes
      exact hbytes
    | error e u =>
      rw [hx, hy] at hbytes
      exact hbytes.elim
  | error e t =>
    cases hy : expectBytes o.lax inp (s.advance h.length) with
    | ok b u =>
      rw [hx, hy] at hbytes
      exact hbytes
    | error e' u => trivial

theorem rangeBytes_bounded {x : Option (Nat × Bytes × Nat)}
    {s t : State} (hrun : rangeBytes o.lax inp s = .ok x t) (hs : Bounded o inp s) :
    Bounded o inp t := by
  have hspan : if x.isSome then Spans o.lax inp s t else t = s := rangeBytes_ok hrun
  split at hspan
  · exact hspan.bounded hs
  · rwa [hspan]

theorem sim_fillRange (element : Nat → Except Error Val) (ws : List Nat) (olds : List Val) :
    BuildSim (· = .nonDeterministic) (Together o inp) Eq (fillRange element ws olds)
      (fillRange element ws olds) := by
  rintro b b' ⟨hR, -⟩
  unfold fillRange
  simp only
  split
  · exact ⟨rfl, hR, rfl⟩
  · trivial

theorem sim_typedArrayInto (tag : Nat) (bytes : Bytes) (t : Ty) (off : Nat) :
    BuildSim (· = .nonDeterministic) (Together o inp) Eq (typedArrayInto env tag bytes t off)
      (typedArrayInto env tag bytes t off) := by
  unfold typedArrayInto
  refine .same_ite (fun _ => .fail _ _) fun _ => .same_ite (fun _ => .fail _ _) fun _ => ?_
  refine .same_ite (fun _ => ?_) fun _ => .fail _ _
  exact BuildSim.getOut.bind_eq fun out => sim_fillRange _ _ _

theorem sim_readRange (t : Ty) :
    BuildSim (· = .nonDeterministic) (Together o inp) Eq (readRange env o.strict inp t)
      (readRange env o.lax inp t) := by
  refine .same_ite (fun _ => .same_pure _) fun _ => ?_
  refine (BuildSim.call (lockstep_rangeBytes.together rangeBytes_bounded)).bind_eq fun range => ?_
  cases range with
  | none => exact .same_pure _
  | some x => exact (sim_typedArrayInto x.1 x.2.1 t x.2.2).bind_eq fun _ => .same_pure _

theorem lockstep_expectContainer (isMap : Bool) (expected : Bytes) :
    Lockstep Eq (expectContainer o.strict inp isMap expected)
      (expectContainer o.lax inp isMap expected) :=
  (lockstep_itemHead expected).bind_eq fun _ => .same_ite (.refl _) (.refl _)

theorem expectContainer_bounded
    {isMap : Bool} {expected : Bytes} {remaining : Option Nat} {s t : State}
    (hrun : expectContainer o.lax inp isMap expected s = .ok remaining t) : Bounded o inp t := by
  have hcontainer : ∃ s₀ count, Tagged inp s s₀ ∧ Inside o.lax inp isMap s₀ count [] t ∧
      Counts count 0 remaining := expectContainer_ok hrun
  obtain ⟨s₀, count, -, hin, -⟩ := hcontainer
  exact ⟨hin.bound, hin.depth.trans_le hin.room⟩

theorem sim_next (c : SeqCursor) :
    OpSim (· = .nonDeterministic) (Together o inp) Eq (SeqCursor.next inp c)
      (SeqCursor.next inp c) := by
  refine (Lockstep.refl _).together fun {s x t} hrun hs => ?_
  unfold SeqCursor.next at hrun
  split at hrun
  · cases hrun
    exact Ends.bounded (.inl ⟨rfl, rfl⟩) hs
  · split at hrun
    · cases hrun
    · cases hrun
      exact hs
  · split at hrun
    · cases hrun
    split at hrun
    · cases hrun
      exact Ends.bounded (.inr ⟨rfl, ‹_›, rfl⟩) hs
    · cases hrun
      exact hs

theorem sim_nextKey (ha : Addressable o inp) {c c' : MapCursor} (hc : CursorRel c c') :
    OpSim (· = .nonDeterministic) (Together o inp) (fun x y => x.1 = y.1 ∧ CursorRel x.2 y.2)
      (MapCursor.next o.strict inp c) (MapCursor.next o.lax inp c') := by
  rintro s _ ⟨rfl, hs⟩
  have ahead : ∀ {d d' : MapCursor}, CursorRel d d' →
      Run.Agrees (fun e : Error => e.code = .nonDeterministic) (Together o inp)
        (fun x y => x.1 = y.1 ∧ CursorRel x.2 y.2)
        (MapCursor.keyAhead o.strict inp d s) (MapCursor.keyAhead o.lax inp d' s) := by
    intro d d' hd
    have hagree := matches_keyAhead o inp (lt_of_le_of_lt hs.pos ha.length)
      (lt_of_le_of_lt hs.depth ha.depth) hd
    rw [keyAhead_lax] at hagree ⊢
    cases hx : MapCursor.keyAhead o.strict inp d s with
    | ok x t =>
      rw [hx] at hagree
      obtain ⟨hrel, rfl⟩ := hagree
      exact ⟨hrel, rfl, hs⟩
    | error e t =>
      rw [hx] at hagree
      exact hagree
  unfold MapCursor.next
  rw [← hc]
  split
  · exact ⟨⟨rfl, hc⟩, rfl, Ends.bounded (.inl ⟨rfl, rfl⟩) hs⟩
  · split
    · trivial
    · exact ahead rfl
  · split
    · trivial
    split
    · exact ⟨⟨rfl, hc⟩, rfl, Ends.bounded (.inr ⟨rfl, ‹_›, rfl⟩) hs⟩
    · exact ahead hc

/-- The strict reader simulates the lax one, up to errors that the input is not deterministic. -/
def simLaws (env : Env) (ha : Addressable o inp) (hfast : o.errors = .failFast) :
    SimLaws (reader env o.strict inp) (reader env o.lax inp) (· = .nonDeterministic) where
  R := Together o inp
  RMap := CursorRel
  traits := rfl
  duplicates := rfl
  error := rfl
  failFast := hfast
  failFast' := hfast
  offset := sim_look fun _ => rfl
  peek := sim_look peek_strict
  keyKind := sim_look peek_strict
  expectNull := lockstep_expectNull.together (Spans.boundedAfter spans_expectNull)
  expectBoolean := lockstep_expectBoolean.together (Spans.boundedAfter spans_expectBoolean)
  expectUint _ := lockstep_expectUint.together (Spans.boundedAfter spans_expectUint)
  expectSint _ := lockstep_expectSint.together (Spans.boundedAfter spans_expectSint)
  expectReal := lockstep_expectReal.together (Spans.boundedAfter spans_expectReal)
  expectText := lockstep_expectText.together (Spans.boundedAfter spans_expectText)
  expectBytes _ := (lockstep_expectBytes o inp).together (Spans.boundedAfter spans_expectBytes)
  expectTags ts := (lockstep_expectTags ts).together fun h hs => (tagged_expectTags h).bounded hs
  readRange := sim_readRange
  expectArray := by
    refine Lockstep.together ((lockstep_expectContainer _ _).bind_eq fun _ => .refl _) fun h _ => ?_
    obtain ⟨_, _, hrun, hpure⟩ := Run.bind_eq_ok.1 h
    cases hpure
    exact expectContainer_bounded hrun
  next := sim_next
  expectMap := by
    refine Lockstep.together ((lockstep_expectContainer _ _).bind_eq fun _ => .pure rfl)
      fun h _ => ?_
    obtain ⟨_, _, hrun, hpure⟩ := Run.bind_eq_ok.1 h
    cases hpure
    exact expectContainer_bounded hrun
  nextKey := sim_nextKey ha
  keyText := lockstep_expectText.together (Spans.boundedAfter spans_expectText)
  keyUint := lockstep_expectUint.together (Spans.boundedAfter spans_expectUint)
  keySint := lockstep_expectSint.together (Spans.boundedAfter spans_expectSint)
  skipValue := lockstep_skipValue.together fun h hs => by
    obtain ⟨x, r, hx, hin, rfl⟩ := skipValue_ok_iff.1 h
    exact Spans.bounded ⟨x, r, hx.parsed, hin, rfl, rfl⟩ hs
  restore := by
    rintro s _ u _ ⟨rfl, hs⟩ ⟨rfl, -⟩
    have hback := restore_save (lt_of_le_of_lt hs.pos ha.length) (lt_of_le_of_lt hs.depth ha.depth)
      u
    refine ⟨rfl, ?_⟩
    show Bounded o inp (u.restore s.save)
    rw [hback]
    exact ⟨hs.pos, hs.depth⟩

/-! ### The calls -/

theorem annotateTypeDeterminism_code (t : Ty) (e : Error) :
    (annotateTypeDeterminism env t e).code = e.code := by
  unfold annotateTypeDeterminism
  repeat' split
  all_goals rfl

/-- The options with the validation on and those with it off decode alike, unless the strict ones
report `non_deterministic`. -/
theorem decode_strict_lax (ha : Addressable o inp) (hfast : o.errors = .failFast) (fuel : Nat)
    (t : Ty) :
    (∀ v, Cbor.decode env o.strict fuel t inp = .ok v → Cbor.decode env o.lax fuel t inp = .ok v) ∧
      ∀ a v, Cbor.decode env o.strict fuel t inp = .error a →
        Cbor.decode env o.lax fuel t inp = .ok v →
        ∃ e, a = .error e ∧ e.code = .nonDeterministic := by
  have hwith : withTypeDeterminism o.strict (isDeterministicType env t) = o.strict := by
    unfold withTypeDeterminism
    split <;> rfl
  cases hdet : isDeterministicType env t with
  | true =>
    -- the type asks for the validation, so both calls run with it
    have heq : Cbor.decode env o.lax fuel t inp = Cbor.decode env o.strict fuel t inp := by
      simp only [Cbor.decode, hdet]
      rfl
    rw [heq]
    refine ⟨fun v h => h, fun a v h h' => ?_⟩
    rw [h] at h'
    cases h'
  | false =>
    have hstart : Together o inp (start inp {}) (start inp {}) :=
      ⟨rfl, (start_tagged {}).bounded ⟨Nat.zero_le _, Nat.zero_le _⟩⟩
    have hsim : (simLaws env ha hfast).Sim (VCodec.decode env (reader env o.strict inp) fuel t)
        (VCodec.decode env (reader env o.lax inp) fuel t) :=
          (simLaws env ha hfast).sim_decode fuel t
    have hagree :=
      hsim { reader := start inp {}, out := t.zero env }
      { reader := start inp {}, out := t.zero env }
      ⟨hstart, rfl⟩
    rw [hdet] at hwith
    have hlax : withTypeDeterminism o.lax false = o.lax := rfl
    simp only [Cbor.decode, hdet, hwith, hlax]
    cases hx : VCodec.decode env (reader env o.strict inp) fuel t
      { reader := start inp {}, out := t.zero env } with
    | ok u b =>
      rw [hx] at hagree
      obtain ⟨u', b', hy, -, ⟨hreader, -⟩, hout⟩ := hagree.ok_left
      rw [hy]
      have hb : b = b' := by
        cases b
        cases b'
        cases hreader
        cases hout
        rfl
      subst hb
      refine ⟨fun v h => h, fun a v h h' => ?_⟩
      simp only at h h'
      rw [show conclude o.lax inp b = conclude o.strict inp b from rfl, h] at h'
      cases h'
    | error a b =>
      refine ⟨fun v h => ?_, fun a' v h h' => ?_⟩
      · cases a <;> cases h
      · cases hy : VCodec.decode env (reader env o.lax inp) fuel t
          { reader := start inp {}, out := t.zero env } with
        | error a₁ b₁ =>
          rw [hy] at h'
          cases a₁ <;> cases h'
        | ok u b₁ =>
          rw [hx, hy] at hagree
          cases a with
          | error e =>
            cases h
            exact ⟨_, rfl, (annotateTypeDeterminism_code t _).trans
              ((Error.finalize_code e).trans hagree)⟩
          | rejected => exact hagree.elim
          | outOfFuel => exact hagree.elim

/-- A byte in shortest form, and the same value in two bytes. -/
theorem decode_strict_lax_witness :
    Cbor.decode default (Options.lax {}) 1 (.int uint8) [0x05] = .ok (.int 5) ∧
      ∃ e, Cbor.decode default (Options.strict {}) 1 (.int uint8) [0x18, 0x05] = .error (.error e) ∧
        e.code = .nonDeterministic := by
  refine ⟨(decode_strict_lax ⟨by decide, by decide⟩ rfl 1 _).1 _ (by rfl), ?_⟩
  obtain ⟨a, hstrict⟩ : ∃ a, Cbor.decode default (Options.strict {}) 1 (.int uint8) [0x18, 0x05] =
    .error a := ⟨_, rfl⟩
  have hlax : Cbor.decode default (Options.lax {}) 1 (.int uint8) [0x18, 0x05] = .ok (.int 5) := by
    rfl
  obtain ⟨e, rfl, hcode⟩ := (decode_strict_lax ⟨by decide, by decide⟩ rfl 1 _).2 a _ hstrict hlax
  exact ⟨e, hstrict, hcode⟩

end VCodec.Cbor
