import VCodec.Core.Half
import VCodec.Cbor.Expect
import VCodec.Cbor.Sequence
import VCodec.Cbor.Strict

/-!
# Floats

A double is written in the narrowest of three widths that keeps it, and read back from any. The
strict reader accepts a float in the width that the writer would choose for its value, so it accepts
exactly the bytes that the writer emits.
-/

namespace VCodec.Cbor

open Ieee

/-! ### Widths -/

/-- A half of the same value. -/
def IsHalf (d : Double) (x : Half) : Prop := x.Same d

theorem isHalf_iff {d : Double} {x : Half} :
    IsHalf d x ↔ x.isNan = false ∧ x.convert doubleFormat = d :=
  Binary.same_iff (by decide) (by decide) (by decide)

/-- A single of the same value. -/
def IsSingle (d : Double) (x : Single) : Prop := x.Same d

theorem isSingle_iff {d : Double} {x : Single} :
    IsSingle d x ↔ x.isNan = false ∧ x.convert doubleFormat = d :=
  Binary.same_iff (by decide) (by decide) (by decide)

/-- The bytes are the double in the narrowest form that represents it. -/
inductive Narrowest (d : Double) : Bytes → Prop
  | half (x : Half) : IsHalf d x → Narrowest d (0xF9 :: be 2 x.bits)
  | single (x : Single) : (¬ ∃ y, IsHalf d y) → IsSingle d x → Narrowest d (0xFA :: be 4 x.bits)
  | double : (¬ ∃ y, IsHalf d y) → (¬ ∃ y, IsSingle d y) → Narrowest d (0xFB :: be 8 d.bits)

variable {d : Double}

theorem toHalf_isSome_iff (hd : d.isNan = false) : (toHalf d).isSome = true ↔ ∃ x, IsHalf d x := by
  rw [Option.isSome_iff_exists]
  constructor
  · rintro ⟨h, hh⟩
    obtain ⟨x, hx, -, hback⟩ := (toHalf_eq_some hd).1 hh
    exact ⟨x, isHalf_iff.2 ⟨hx, hback⟩⟩
  · rintro ⟨x, hhalf⟩
    obtain ⟨hx, hback⟩ := isHalf_iff.1 hhalf
    exact ⟨x.bits, (toHalf_eq_some hd).2 ⟨x, hx, rfl, hback⟩⟩

theorem isHalf_unique {x y : Half} (hx : IsHalf d x) (hy : IsHalf d y) : x = y := by
  rw [isHalf_iff] at hx hy
  rw [← Binary.convert_convert (g := doubleFormat) (by decide) (by decide) (by decide) hx.1,
    hx.2, ← hy.2,
    Binary.convert_convert (by decide) (by decide) (by decide) hy.1]

theorem isSingle_singleOfDouble {x : Single} (hx : IsSingle d x) : x = singleOfDouble d := by
  rw [isSingle_iff] at hx
  rw [← hx.2]
  exact (singleOfDouble_doubleOfSingle hx.1).symm

theorem fitsSingle_iff (hd : d.isNan = false) (hhalf : toHalf d = none) :
    fitsSingle d = true ↔ IsSingle d (singleOfDouble d) := by
  rw [isSingle_iff]
  constructor
  · intro hfit
    exact ⟨Binary.isNan_convert hd, doubleOfSingle_of_fitsSingle hhalf hfit⟩
  · rintro ⟨-, hback⟩
    have heq : doubleOfSingle (singleOfDouble d) = d := hback
    rw [fitsSingle, heq]
    simp [Binary.eq, hd]

theorem narrowest_preferred (hd : d.isNan = false) : Narrowest d (preferredBytes d) := by
  have hsome := toHalf_isSome_iff hd
  rw [preferredBytes]
  cases hhalf : toHalf d with
  | some h =>
    obtain ⟨x, hx, rfl, hback⟩ := (toHalf_eq_some hd).1 hhalf
    exact .half x (isHalf_iff.2 ⟨hx, hback⟩)
  | none =>
    rw [hhalf] at hsome
    have hno : ¬ ∃ x, IsHalf d x := fun h => Bool.false_ne_true (hsome.2 h)
    have hfits := fitsSingle_iff hd hhalf
    dsimp only
    split
    · rename_i hfit
      exact .single _ hno (hfits.1 hfit)
    · rename_i hfit
      refine .double hno ?_
      rintro ⟨x, hx⟩
      refine hfit (hfits.2 ?_)
      rwa [← isSingle_singleOfDouble hx]

theorem Narrowest.unique {a b : Bytes} (ha : Narrowest d a) (hb : Narrowest d b) : a = b := by
  cases ha with
  | half x hx =>
    cases hb with
    | half y hy => rw [isHalf_unique hx hy]
    | single y hno => exact absurd ⟨x, hx⟩ hno
    | double hno => exact absurd ⟨x, hx⟩ hno
  | single x hno hx =>
    cases hb with
    | half y hy => exact absurd ⟨y, hy⟩ hno
    | single y _ hy => rw [isSingle_singleOfDouble hx, isSingle_singleOfDouble hy]
    | double _ hno' => exact absurd ⟨x, hx⟩ hno'
  | double hno hno' =>
    cases hb with
    | half y hy => exact absurd ⟨y, hy⟩ hno
    | single y _ hy => exact absurd ⟨y, hy⟩ hno'
    | double => rfl

/-! ### The check of the strict reader -/

/-- A width holds one pattern for each number. -/
theorem floatOf_inj {ai v w : Nat} (hv : v < 256 ^ argSize ai) (hw : w < 256 ^ argSize ai)
    (hai : 25 ≤ ai ∧ ai ≤ 27) (hnan : (floatOf ai v).isNan = false)
    (h : floatOf ai v = floatOf ai w) : v = w := by
  rcases (show ai = 25 ∨ ai = 26 ∨ ai = 27 by omega) with rfl | rfl | rfl
  · have hhalf : fromHalf v = fromHalf w := h
    have hv' := toHalf_fromHalf hv hnan
    have hw' := toHalf_fromHalf hw (by rw [← hhalf]; exact hnan)
    rw [hhalf, hw'] at hv'
    exact (Option.some.inj hv').symm
  · have hsingle : doubleOfSingle (singleOfBits v) = doubleOfSingle (singleOfBits w) := h
    have hback : ∀ u, (doubleOfSingle (singleOfBits u)).isNan = false → u < 2 ^ 32 →
        (singleOfDouble (doubleOfSingle (singleOfBits u))).bits = u := by
      intro u hu hlt
      have hfin : (singleOfBits u).isNan = false := by
        cases hc : (singleOfBits u).isNan with
        | false => rfl
        | true =>
          rw [doubleOfSingle, Binary.convert, if_pos hc, Binary.isNan_nan] at hu
          cases hu
      rw [singleOfDouble_doubleOfSingle hfin]
      exact Binary.bits_ofBits hlt
    rw [← hback v hnan hv, hsingle]
    exact hback w (by rw [← hsingle]; exact hnan) hw
  · have hdouble : doubleOfBits v = doubleOfBits w := h
    have hv' : (doubleOfBits v).bits = v := Binary.bits_ofBits hv
    have hw' : (doubleOfBits w).bits = w := Binary.bits_ofBits hw
    rw [← hv', hdouble, hw']

theorem width_of_ai {h k : Head} (hh : 25 ≤ h.ai) (hai : h.ai = k.ai) : h.width = k.width := by
  obtain ⟨w, v, hv⟩ := h
  obtain ⟨w', v', hv'⟩ := k
  cases w <;> cases w' <;> simp only [Head.ai, Width.bound] at hh hai hv hv' ⊢ <;> omega

/-- A float in the preferred width is the item that the writer emits for its value. -/
theorem preferred_iff_bytes
    {h : Head} (hai : 25 ≤ h.ai ∧ h.ai ≤ 27) (hnan : (floatOf h.ai h.value).isNan = false) :
    PreferredFloat h.ai h.value ↔ h.bytes .simple = preferredBytes (floatOf h.ai h.value) := by
  obtain ⟨k, hbytes, hk, hpref, hvalue⟩ := preferredBytes_eq (floatOf h.ai h.value)
  have hback := hvalue hnan
  rw [hbytes]
  constructor
  · intro hh
    rw [PreferredFloat, hnan, if_neg Bool.false_ne_true] at hh
    rw [PreferredFloat, hback, hnan, if_neg Bool.false_ne_true, ← hh] at hpref
    have hwidth := width_of_ai hai.1 hpref.symm
    rw [hpref] at hback
    have hsize : h.width.bound = 256 ^ argSize h.ai := by
      rcases h.direct_or_wide with ⟨-, heq, hlt⟩ | ⟨-, -, hsize, hbound⟩
      · omega
      · rw [hsize, hbound]
    have hvalues := floatOf_inj (hsize ▸ h.fits) (hsize ▸ hwidth ▸ k.fits) hai hnan hback.symm
    rw [Head.ext_iff.2 ⟨hwidth, hvalues⟩]
  · intro hh
    rw [Head.bytes_inj hh]
    exact hpref

/-! ### Writing and reading -/

section

variable {o D : Options} {inp rest : Bytes} {s : State} {h : Head}

/-- What `expect_real` does with a float item: a strict reader takes it in its preferred width
only. -/
theorem expectReal_float (hdrop : inp.drop s.pos = h.bytes .simple ++ rest)
    (hai : 25 ≤ h.ai ∧ h.ai ≤ 27) :
    (D.requireDeterministic = true → PreferredFloat h.ai h.value) ∧
        expectReal D inp s = .ok (floatOf h.ai h.value)
        { s with pos := s.pos + (h.bytes .simple).length, start := s.pos } ∨
      ¬ (D.requireDeterministic = true → PreferredFloat h.ai h.value) ∧
        ∃ e t, expectReal D inp s = .error e t ∧ e.code = .nonDeterministic := by
  have hhead : parseHead (h.bytes .simple ++ rest) 0 = h.parsed .simple :=
    parseHead_head (by rw [List.drop_zero])
  have hadmitted : Admitted D (h.parsed .simple) :=
    ⟨Nat.ne_of_gt (Nat.add_pos_left Nat.one_pos _), rfl, rfl, nofun,
      fun ⟨_, h24, _⟩ => absurd (show h.ai = 24 from h24) (by omega),
      fun _ => ⟨rfl, .inr rfl⟩⟩
  have hat : HeadAt D inp s.pos [] (h.bytes .simple ++ rest) :=
    ⟨hdrop, fun h => absurd rfl h, by rw [hhead]; exact hadmitted⟩
  have hrun := hat.itemHead (str "float")
  rw [hhead] at hrun
  have hlen : (h.parsed .simple).length = (h.bytes .simple).length := by rw [Head.bytes_length]; rfl
  by_cases hpref : D.requireDeterministic = true → PreferredFloat h.ai h.value
  · refine .inl ⟨hpref, ?_⟩
    have hcheck : whenStrict D (checkPreferredFloat (floatOf h.ai h.value) h.ai h.value s.pos) =
      none :=
      whenStrict_eq_none.2 fun hdet => checkPreferredFloat_eq_none.2 (hpref hdet)
    rw [expectReal_of_none hrun rfl hai hcheck, ← hlen]
    rfl
  · refine .inr ⟨hpref, ?_⟩
    rw [Classical.not_imp] at hpref
    cases hcheck : checkPreferredFloat (floatOf h.ai h.value) h.ai h.value s.pos with
    | none => exact absurd (checkPreferredFloat_eq_none.1 hcheck) hpref.2
    | some e =>
      refine ⟨e, { s with start := s.pos }, ?_, checkPreferredFloat_code hcheck⟩
      have hwhen : whenStrict D (checkPreferredFloat (floatOf h.ai h.value) h.ai h.value s.pos) =
        some e := by
        rw [whenStrict, if_pos hpref.1, hcheck]
      exact expectReal_of_some hrun rfl hai hwhen

end

/-- `write_real` in preferred mode emits these bytes, whatever was written before. -/
def Emitted (d : Double) (bs : Bytes) : Prop := ∀ w :
    Writer, writeReal d .preferred w = .ok () (w.append bs)

theorem emitted_iff {bs : Bytes} : Emitted d bs ↔ bs = preferredBytes d := by
  constructor
  · intro h
    have hempty :
      (EStateM.Result.ok () ⟨preferredBytes d, []⟩ : EStateM.Result EncodeError Writer Unit) =
        .ok () ⟨bs, []⟩ := h ⟨[], []⟩
    injection hempty with _ hw
    injection hw with hbs
    exact hbs.symm
  · rintro rfl w
    rfl

/-- What is written reads back, in the fewest bytes, and the strict reader takes nothing else for
it. -/
structure Faithful (d : Double) : Prop where
  /-- `to_half` succeeds where there is a half of this value, and the half it finds is it. -/
  toHalf : (toHalf d).isSome = true ↔ ∃ x, IsHalf d x
  fromHalf : ∀ h, VCodec.toHalf d = some h → fromHalf h = d
  /-- `write_real` in preferred mode emits the narrowest form. -/
  writes : ∃ bs, Emitted d bs ∧ ∀ cs, Narrowest d cs ↔ cs = bs
  /-- `expect_real` of any reader has the value back. -/
  reads : ∀ bs, Emitted d bs → ∀ (D : Options) (inp rest : Bytes) (s : State),
    inp.drop s.pos = bs ++ rest →
    expectReal D inp s = .ok d { s with pos := s.pos + bs.length, start := s.pos }
  /-- The strict check passes a float item of this value exactly if it is the one that is
  written. -/
  check : ∀ h : Head, 25 ≤ h.ai ∧ h.ai ≤ 27 → floatOf h.ai h.value = d → ∀ pos,
    (checkPreferredFloat d h.ai h.value pos = none ↔ Emitted d (h.bytes .simple))
  /-- So does the strict reader. -/
  strict : ∀ h : Head, 25 ≤ h.ai ∧ h.ai ≤ 27 → floatOf h.ai h.value = d →
    ∀ (D : Options) (inp rest : Bytes) (s : State),
    D.requireDeterministic = true → inp.drop s.pos = h.bytes .simple ++ rest →
      ((∃ t, expectReal D inp s = .ok d t) ↔ Emitted d (h.bytes .simple))

/-- Every double but a NaN. -/
theorem float_faithful (d : Double) (hd : d.isNan = false) : Faithful d where
  toHalf := toHalf_isSome_iff hd
  fromHalf h hh := (fromHalf_of_toHalf hd hh).1
  writes := by
    have hnarrow := narrowest_preferred hd
    refine ⟨preferredBytes d, emitted_iff.2 rfl, fun cs => ⟨fun h => h.unique hnarrow, ?_⟩⟩
    rintro rfl
    exact hnarrow
  reads bs hbs D inp rest s hdrop := by
    obtain ⟨h, hbytes, hai, hpref, hback⟩ := preferredBytes_eq d
    rw [emitted_iff.1 hbs, hbytes] at hdrop ⊢
    have hle : h.ai ≤ 27 := by
      have := h.ai_lt
      omega
    rcases expectReal_float (D := D) hdrop ⟨hai, hle⟩ with ⟨-, hrun⟩ | ⟨hno, -⟩
    · rw [hrun, hback hd]
    · exact absurd (fun _ => hpref) hno
  check h hai hvalue pos := by
    subst hvalue
    rw [checkPreferredFloat_eq_none, preferred_iff_bytes hai hd, emitted_iff]
  strict h hai hvalue D inp rest s hdet hdrop := by
    subst hvalue
    rw [emitted_iff, ← preferred_iff_bytes hai hd]
    rcases expectReal_float (D := D) hdrop hai with ⟨hpref, hrun⟩ | ⟨hpref, e, t, hrun, -⟩
    · exact iff_of_true ⟨_, hrun⟩ (hpref hdet)
    · refine iff_of_false ?_ fun h => hpref fun _ => h
      rintro ⟨t', ht⟩
      rw [hrun] at ht
      cases ht

theorem float_faithful_half : Faithful (doubleOfBits 0x3FF8000000000000) :=
  float_faithful _ (by decide)

end VCodec.Cbor
