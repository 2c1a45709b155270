import VCodec.Cbor.Ahead
import VCodec.Core.Faithful
import VCodec.Core.Object

/-!
# Typed arrays come back

The elements of a numeric range lie in its byte string as they lie in memory, so each is found again
in its word, and the range that is overwritten with them is the one that was written.
-/

namespace VCodec.Cbor

variable {env : Env} {f : FieldMeta}

/-! ### Elements -/

/-- The element lies in the typed array as this word. -/
structure WordOf (env : Env) (t : Ty) (v : Val) (w : Nat) : Prop where
  bytes : elementBytes t v = (be (Layout.of (typedArrayTag t)).size w).reverse
  fits : w < 256 ^ (Layout.of (typedArrayTag t)).size
  back : ∀ off, (Layout.of (typedArrayTag t)).element env t off w = .ok v

theorem layout_int (k : IntTy) :
    Layout.of (typedArrayTag (.int k)) =
      ⟨false, decide (k.width ≠ .w8), k.width.bytes, k.signed⟩ := by
  obtain ⟨signed, width⟩ := k
  cases signed <;> cases width <;> exact rfl

theorem layout_little {t : Ty} (ht : typedArrayElement t = true) :
    (Layout.of (typedArrayTag t)).little = true ∨ (Layout.of (typedArrayTag t)).size = 1 := by
  cases t with
  | int k =>
    rw [layout_int]
    obtain ⟨signed, width⟩ := k
    cases width
    · exact .inr rfl
    all_goals exact .inl rfl
  | float | double => exact .inl rfl
  | _ => cases ht

theorem layout_size {t : Ty} (ht : typedArrayElement t = true) :
    0 < (Layout.of (typedArrayTag t)).size ∧ (Layout.of (typedArrayTag t)).size < 16 := by
  cases t with
  | int k =>
    rw [layout_int]
    have hbytes : ∀ w : IntWidth, 0 < w.bytes ∧ w.bytes < 16 := by
      intro w
      cases w <;> decide
    exact hbytes k.width
  | float | double => exact (by decide)
  | _ => cases ht

theorem typedArrayTag_bounds {t : Ty} (ht : typedArrayElement t = true) :
    64 ≤ typedArrayTag t ∧ typedArrayTag t ≠ 76 := by
  cases t with
  | int k =>
    obtain ⟨signed, width⟩ := k
    cases signed <;> cases width <;> exact (by decide)
  | float | double => exact (by decide)
  | _ => cases ht

theorem intOf_word {k : IntTy} {i : Int} (hi : k.Holds i) :
    (Layout.of (typedArrayTag (.int k))).intOf (i % 2 ^ k.width.bits).toNat = i := by
  rw [layout_int]
  obtain ⟨hmin, hmax⟩ := hi
  obtain ⟨signed, width⟩ := k
  unfold Layout.intOf
  cases signed <;> cases width <;>
    simp only [IntTy.min, IntTy.max, IntWidth.bits, IntWidth.bytes, if_true, if_false,
      Bool.false_eq_true, false_and,
      true_and] at hmin hmax ⊢ <;> omega

/-- Every element has a word. -/
theorem exists_word {t : Ty} {v : Val} (ht : typedArrayElement t = true) (hv : Proper env f t v) :
    ∃ w, WordOf env t v w := by
  cases t with
  | int k =>
    cases v with
    | int i =>
      have hi : k.Holds i := hv
      refine ⟨(i % 2 ^ k.width.bits).toNat, ?_, ?_, fun off => ?_⟩
      · rw [layout_int]
        exact rfl
      · rw [layout_int]
        have hpos : (0 : Int) < 2 ^ k.width.bits := by positivity
        have hlt := Int.emod_lt_of_pos i hpos
        have hnonneg := Int.emod_nonneg i hpos.ne'
        have hpow : ∀ w : IntWidth, (256 : Nat) ^ w.bytes = 2 ^ w.bits := by
          intro w
          cases w <;> decide
        show _ < 256 ^ k.width.bytes
        rw [hpow]
        have hcast : ((2 ^ k.width.bits : Nat) : Int) = 2 ^ k.width.bits := by push_cast; rfl
        omega
      · have hback := intOf_word hi
        unfold Layout.element
        simp only [hback]
        rw [if_neg (by rw [layout_int]; exact Bool.false_ne_true),
          if_pos (show k.min ≤ i ∧ i ≤ k.max from hi)]
    | _ => exact hv.elim
  | float =>
    cases v with
    | single x =>
      exact ⟨x.bits, rfl, x.bits_lt, fun _ =>
        congrArg (fun y => Except.ok (Val.single y)) (Ieee.Binary.ofBits_bits x)⟩
    | _ => exact hv.elim
  | double =>
    cases v with
    | real x =>
      exact ⟨x.bits, rfl, x.bits_lt, fun _ =>
        congrArg (fun y => Except.ok (Val.real y)) (Ieee.Binary.ofBits_bits x)⟩
    | _ => exact hv.elim
  | _ => cases ht

/-! ### The whole range -/

theorem word_bytes {l : Layout} (hl : l.little = true ∨ l.size = 1) {w : Nat}
    (hw : w < 256 ^ l.size) :
    l.word (be l.size w).reverse = w := by
  unfold Layout.word
  rcases hl with hlittle | hsize
  · rw [hlittle, if_pos rfl, List.reverse_reverse, beValue_be hw]
  · have hone : (be l.size w).reverse = be l.size w := by
      rw [hsize]
      exact rfl
    rw [hone]
    split
    · rw [hone, beValue_be hw]
    · exact beValue_be hw

theorem words_flatMap {t : Ty} (ht : typedArrayElement t = true) {vs : List Val} {ws : List Nat}
    (h : List.Forall₂ (WordOf env t) vs ws) :
    (Layout.of (typedArrayTag t)).words vs.length (vs.flatMap (elementBytes t)) = ws := by
  induction h with
  | nil => exact rfl
  | @cons v w vs ws hw _ ih =>
    have hlen : (elementBytes t v).length = (Layout.of (typedArrayTag t)).size := by
      rw [hw.bytes, List.length_reverse, be_length]
    rw [List.flatMap_cons, List.length_cons, Layout.words, List.take_left' hlen,
      List.drop_left' hlen, ih, hw.bytes,
      word_bytes (layout_little ht) hw.fits]

theorem length_elements {t : Ty} {vs : List Val} {ws : List Nat}
    (h : List.Forall₂ (WordOf env t) vs ws) :
    (vs.flatMap (elementBytes t)).length = vs.length * (Layout.of (typedArrayTag t)).size := by
  induction h with
  | nil => exact (Nat.zero_mul _).symm
  | @cons v w vs ws hw _ ih =>
    rw [List.flatMap_cons, List.length_append, ih, hw.bytes, List.length_reverse, be_length,
      List.length_cons,
      Nat.succ_mul, Nat.add_comm]

theorem fillElements_words
    {t : Ty} {vs : List Val} {ws : List Nat} (h : List.Forall₂ (WordOf env t) vs ws)
    (off : Nat) {olds : List Val} (holds : olds.length = ws.length) :
    fillElements ((Layout.of (typedArrayTag t)).element env t off) ws olds = (vs, none) := by
  induction h generalizing olds with
  | nil =>
    obtain rfl := List.length_eq_zero_iff.1 holds
    exact rfl
  | @cons v w vs ws hw _ ih =>
    cases olds with
    | nil => cases holds
    | cons old olds =>
      rw [fillElements]
      simp only [hw.back, ih (Nat.succ.inj holds)]

theorem exists_words {t : Ty} (ht : typedArrayElement t = true) {vs : List Val}
    (hvs : ∀ v ∈ vs, Proper env f t v) :
    ∃ ws, List.Forall₂ (WordOf env t) vs ws := by
  induction vs with
  | nil => exact ⟨[], .nil⟩
  | cons v vs ih =>
    obtain ⟨hv, hvs⟩ := List.forall_mem_cons.1 hvs
    obtain ⟨w, hw⟩ := exists_word ht hv
    obtain ⟨ws, hws⟩ := ih hvs
    exact ⟨w :: ws, .cons hw hws⟩

/-- The typed array of a range is read into the range. -/
theorem typedArrayInto_at {t : Ty} (ht : typedArrayRange t = true) {v : Val} (hv : Proper env f t v)
    (off : Nat) {b : Build State} (hold : Shaped env t b.out) :
    typedArrayInto env (typedArrayTag (rangeShape t).1) (rangeData t v) t off b =
      .ok () { b with out := v } := by
  have hrange : ∃ vs, v = .seq vs ∧ typedArrayElement (rangeShape t).1 = true ∧
    (∀ u ∈ vs, Proper env f (rangeShape t).1 u) ∧
      (∀ m ∈ (rangeShape t).2, m = vs.length ∧ b.out.items.length = m) := by
    cases t with
    | seq kind t =>
      cases v with
      | seq vs =>
        obtain ⟨hlen, hparts⟩ := properEach_iff.1 hv.1
        refine ⟨vs, rfl, ?_, fun u hu => ?_, nofun⟩
        · cases kind with
          | vector => exact ht
          | _ => cases ht
        · obtain ⟨i, hi⟩ := List.getElem?_of_mem hu
          exact hparts i t u
            (by rw [List.getElem?_replicate, if_pos (List.getElem?_eq_some_iff.1 hi).1]) hi
      | _ => exact hv.elim
    | array n t =>
      cases v with
      | seq vs =>
        obtain ⟨hlen, hparts⟩ := properEach_iff.1 hv
        rw [List.length_replicate] at hlen
        refine ⟨vs, rfl, ht, fun u hu => ?_, fun m hm => ?_⟩
        · obtain ⟨i, hi⟩ := List.getElem?_of_mem hu
          exact hparts i t u
            (by rw [List.getElem?_replicate, if_pos (hlen ▸ (List.getElem?_eq_some_iff.1 hi).1)]) hi
        · obtain rfl := Option.mem_some_iff.1 hm
          exact ⟨hlen.symm, (hold.length rfl).trans List.length_replicate⟩
      | _ => exact hv.elim
    | _ => cases ht
  obtain ⟨vs, rfl, helem, hvs, hfixed⟩ := hrange
  generalize hshape : rangeShape t = shape at helem hvs hfixed
  obtain ⟨elem, fixed⟩ := shape
  obtain ⟨ws, hws⟩ := exists_words helem hvs
  obtain ⟨hpos, hsmall⟩ := layout_size helem
  have hlen : (rangeData t (.seq vs)).length =
    vs.length * (Layout.of (typedArrayTag elem)).size := by
    unfold rangeData
    rw [hshape]
    exact length_elements hws
  have hcount : (rangeData t (.seq vs)).length / (Layout.of (typedArrayTag elem)).size =
    vs.length := by
    rw [hlen, Nat.mul_div_cancel _ hpos]
  have hwords : (Layout.of (typedArrayTag elem)).words vs.length (rangeData t (.seq vs)) = ws := by
    unfold rangeData
    rw [hshape]
    exact words_flatMap helem hws
  have hwhole : ¬ (rangeData t (.seq vs)).length % (Layout.of (typedArrayTag elem)).size ≠ 0 := by
    rw [hlen, Nat.mul_mod_left]
    exact fun h => h rfl
  have holds :
    (if fixed.isSome then b.out.items else List.replicate vs.length (elem.zero env)).length =
    ws.length := by
    rw [← hws.length_eq]
    cases fixed with
    | none => exact List.length_replicate
    | some m => exact (hfixed m rfl).2.trans (hfixed m rfl).1
  unfold typedArrayInto
  simp only [hshape, hcount, hwords]
  rw [if_neg fun h => absurd h.2 hsmall.ne, if_neg hwhole, if_pos fun m hm => (hfixed m hm).1,
    Run.bind_of_ok (D.getOut_eq_ok.2 ⟨rfl, rfl⟩)]
  unfold fillRange
  rw [fillElements_words hws off holds]

end VCodec.Cbor
