import VCodec.Cbor.Integers
import VCodec.Json.Reals
import VCodec.Core.Doubles

/-!
# Integers in double members

A double member takes an integer from either format. The reader of JSON rounds it once. The reader
of CBOR rounds the argument of a negative item, and then the difference, which is another double for
the integers of `RoundedTwice`.
-/

namespace VCodec

open Ieee
open EStateM (Result)

/-- The magnitude below the integer is taken for another one where it is rounded first. -/
def RoundedTwice (i : Int) : Prop :=
  i < 0 ∧ SuccLost (-1 - i).toNat (2 ^ (Nat.log2 (-1 - i).toNat - 52))

instance (i : Int) : Decidable (RoundedTwice i) := inferInstanceAs (Decidable (_ ∧ _))

/-! ### CBOR -/

namespace Cbor

/-- One behind a natural that was rounded. -/
theorem negOneMinus_eq {n : Nat} (hn : n < 2 ^ 64) :
    negOneMinus (doubleOfNat n) = .ofRatio doubleFormat true (1 + doubleFormat.roundUnits n 1)
      1 := by
  have hpos : 0 < 2 ^ doubleFormat.scale := Nat.two_pow_pos _
  have hsum : 2 ^ doubleFormat.scale + doubleFormat.units (doubleOfNat n).mag =
      (1 + doubleFormat.roundUnits n 1) * 2 ^ doubleFormat.scale := by
    rw [Nat.add_mul, Nat.one_mul]
    exact congrArg _ (units_nat (by omega))
  have hscaled := doubleFormat.roundMag_mul_right (1 + doubleFormat.roundUnits n 1) 1 hpos
  rw [Nat.one_mul] at hscaled
  rw [negOneMinus, hsum]
  exact Format.ofRatio_inj.2 hscaled

theorem negOneMinus_iff {n : Nat} (hn : n < 2 ^ 64) :
    negOneMinus (doubleOfNat n) = .ofRatio doubleFormat true (n + 1) 1 ↔
      ¬ SuccLost n (2 ^ (Nat.log2 n - 52)) := by
  have hle := doubleFormat.roundUnits_le n
  have hsucc := doubleFormat.roundUnits_succ n
  rw [show doubleFormat.mbits = 52 from rfl] at hsucc
  rw [negOneMinus_eq hn, ← hsucc, Format.ofRatio_inj,
    Format.roundMag_inj Nat.one_pos Nat.one_pos (roundMag_nat_lt (by omega))
    (roundMag_nat_lt (by omega)),
    Format.roundUnits_mul_two_pow, Format.roundUnits_mul_two_pow]
  exact Nat.mul_left_inj (Nat.two_pow_pos _).ne'

variable {o : Options} {inp rest : Bytes} {s : State} {x : IntItem}

/-- The double of an item. -/
def IntItem.toDouble (x : IntItem) : Double :=
  if x.negative then negOneMinus (doubleOfNat x.head.value) else doubleOfNat x.head.value

theorem expectReal_item (hdrop : inp.drop s.pos = x.bytes ++ rest) (hallowed : x.Allowed o) :
    expectReal o inp s = .ok x.toDouble (s.passed x) := by
  rw [expectReal, Run.bind_of_ok (itemHead_item hdrop hallowed _), State.passed, IntItem.bytes,
    Head.bytes_length,
    IntItem.major, IntItem.toDouble]
  cases x.negative with
  | true => rfl
  | false => rfl

theorem IntItem.toDouble_iff (x : IntItem) (hx : -2 ^ 64 ≤ x.value) :
    x.toDouble = nearestDouble x.value ↔ ¬ RoundedTwice x.value := by
  rw [toDouble, RoundedTwice]
  cases hneg : x.negative with
  | false =>
    have hvalue : x.value = (x.head.value : Int) := by
      rw [value, hneg]
      rfl
    rw [hvalue]
    refine iff_of_true ?_ fun h => absurd h.1 (by omega)
    rw [if_neg Bool.false_ne_true, nearestDouble, Int.natAbs_natCast, decide_eq_false (by omega)]
    rfl
  | true =>
    have hvalue : x.value = -1 - (x.head.value : Int) := by
      rw [value, hneg]
      rfl
    have hlt : x.value < 0 := by omega
    have harg : (-1 - x.value).toNat = x.head.value := by omega
    have habs : x.value.natAbs = x.head.value + 1 := by omega
    rw [if_pos rfl, nearestDouble, decide_eq_true hlt, habs, harg, negOneMinus_iff (by omega),
      and_iff_right hlt]

end Cbor

/-! ### JSON -/

namespace Json

variable {cc : Charconv} {inp rest : Bytes} {s : State} {n : Number}

/-- A literal with a minus sign for the integers below zero, and for no others. -/
structure Number.Canonical (n : Number) : Prop where
  whole : n.Whole
  minus : n.minus ≠ [] ↔ n.intValue < 0

theorem Number.intValue_natAbs (n : Number) : n.intValue.natAbs = digitsValue n.int := by
  rw [Number.intValue]
  split
  · exact Int.natAbs_natCast _
  · rw [Int.natAbs_neg, Int.natAbs_natCast]

theorem Number.Canonical.rounded (h : n.Canonical) : n.rounded = nearestDouble n.intValue := by
  obtain ⟨hnum, hden⟩ := n.ratio_whole h.whole
  rw [Number.rounded, nearestDouble, hnum, hden, n.intValue_natAbs, decide_eq_decide.2 h.minus]

/-- The double of a number that is no minus zero. -/
def NumberScan.toDouble (x : NumberScan) : Double :=
  match x.kind with
  | .uint => doubleOfInt x.u
  | .sint => doubleOfInt x.i
  | _ => x.d

/-- What the scanner makes of the literal. -/
structure NumberScan.Reads (x : NumberScan) (n : Number) : Prop where
  kind : x.kind ≠ .undefined
  length : x.length = n.bytes.length
  nonzero : x.kind = .sint → x.i ≠ 0
  toDouble : x.toDouble = nearestDouble n.intValue

theorem Number.Canonical.scan
    (h : n.Canonical) (hcc : cc.Correct) (hv : digitsValue n.int < 2 ^ 66) :
    (n.scan cc).Reads n := by
  by_cases hfits : n.Fits64
  · rcases Number.fits64_iff.1 hfits with ⟨hminus, hu⟩ | ⟨hminus, hi⟩
    · rw [Number.scan_uint cc h.whole hminus hu]
      refine ⟨Kind.noConfusion, rfl, Kind.noConfusion, ?_⟩
      rw [Number.intValue, if_pos hminus]
      rfl
    · have hneg := h.minus.1 hminus
      rw [Number.scan_sint cc h.whole hminus hi]
      rw [Number.intValue, if_neg hminus] at hneg
      refine ⟨Kind.noConfusion, rfl, fun _ => hneg.ne, ?_⟩
      rw [Number.intValue, if_neg hminus]
      rfl
  · obtain ⟨overflow, hscan⟩ := Number.scan_real cc fun hn => hfits hn.2
    obtain ⟨hover, hunder⟩ := n.whole_range h.whole hv
    rw [hscan, Number.realScan, hcc n, if_neg (not_or.2 ⟨hover, hunder⟩)]
    exact ⟨Kind.noConfusion, rfl, Kind.noConfusion, h.rounded⟩

theorem expectReal_literal (h : n.Canonical) (hcc : cc.Correct) (hv : digitsValue n.int < 2 ^ 66)
    (hdrop : inp.drop (s.skipped inp).pos = n.bytes ++ rest) (hends : n.Ends rest) :
    expectReal cc inp s = .ok (nearestDouble n.intValue)
      ((s.skipped inp).advance n.bytes.length) := by
  have hscan := h.scan hcc hv
  have hnumber : number cc inp (str "number") (s.skipped inp) = _ :=
    number_ok hdrop hends rfl hscan.kind
  rw [expectReal, Run.bind_of_ok (skipWs_run s),
    Run.bind_of_ok hnumber, ← hscan.toDouble, ← hscan.length]
  generalize n.scan cc = x at hscan
  show Result.ok _ _ = Result.ok _ _
  congr 1
  rw [NumberScan.toDouble]
  cases hkind : x.kind with
  | sint =>
    dsimp only
    rw [if_neg fun hz => hscan.nonzero hkind (of_decide_eq_true hz).2.1]
  | _ => rfl

end Json

/-! ### Members -/

/-- A double member has the double from every item of the integer that the reader lets through. -/
def Cbor.Gives (i : Int) (d : Double) : Prop :=
  ∀ (env : Env) (o : Options) (x : IntItem) (inp rest : Bytes) (fuel : Nat) (f : FieldMeta)
    (b : Build State),
    x.value = i → x.Allowed o → f.tags = [] → inp.drop b.reader.pos = x.bytes ++ rest →
      decodeFieldValue env (reader env o inp) (decodeValue env (reader env o inp) (fuel + 1) f) f
        .double b =
        .ok () { b with reader := b.reader.passed x, out := .real d }

/-- A double member has the double from the literal of the integer. -/
def Json.Gives (cc : Charconv) (i : Int) (d : Double) : Prop :=
  ∀ (env : Env) (o : Options) (n : Number) (inp rest : Bytes) (fuel : Nat) (f : FieldMeta)
    (b : Build State),
    n.Canonical → n.intValue = i → inp.drop (b.reader.skipped inp).pos = n.bytes ++ rest →
      n.Ends rest →
      decodeFieldValue env (reader o cc inp) (decodeValue env (reader o cc inp) (fuel + 1) f) f
        .double b =
        .ok () { b with reader := (b.reader.skipped inp).advance n.bytes.length, out := .real d }

/-- A double member holds what `expect_real` returns. -/
theorem decodeField_double
    {σ S M : Type} {env : Env} {r : Reader σ S M} {fuel : Nat} {f : FieldMeta} {b : Build σ} {s : σ}
    {d : Double} (htags : r.traits.expectedTags env f .double = [])
    (hbulk : r.traits.bulkRange f .double = false)
    (haccepts : r.traits.acceptsBulkRange .double = false)
    (hrun : r.expectReal b.reader = .ok d s) :
    decodeFieldValue env r (decodeValue env r (fuel + 1) f) f .double b =
      .ok () { b with reader := s, out := .real d } := by
  have hdec : decodeValue env r (fuel + 1) f .double b =
    .ok () { b with reader := s, out := .real d } := by
    rw [decodeValue]
    exact Run.bind_of_ok (D.call_of_ok hrun) _
  rw [decodeFieldValue, decodeTags, htags, decodeBulk, hbulk, haccepts]
  · exact hdec
  · exact fun _ => Ty.noConfusion

theorem Json.gives_nearest {cc : Charconv} (hcc : cc.Correct) {i : Int} (hlo : -2 ^ 64 ≤ i)
    (hhi : i < 2 ^ 64) :
    Gives cc i (nearestDouble i) := by
  rintro env o n inp rest fuel f b hn rfl hdrop hends
  have hv : digitsValue n.int < 2 ^ 66 := by
    rw [← n.intValue_natAbs]
    omega
  exact decodeField_double rfl rfl rfl (expectReal_literal hn hcc hv hdrop hends)

theorem Cbor.gives_iff {i : Int} (hlo : -2 ^ 64 ≤ i) (hhi : i < 2 ^ 64) :
    Gives i (nearestDouble i) ↔ ¬ RoundedTwice i := by
  have hrun : ∀ (env : Env) (o : Options) (x : IntItem) (inp rest : Bytes) (fuel : Nat)
    (f : FieldMeta) (b : Build State),
      x.Allowed o → f.tags = [] → inp.drop b.reader.pos = x.bytes ++ rest →
        decodeFieldValue env (reader env o inp) (decodeValue env (reader env o inp) (fuel + 1) f) f
          .double b =
          .ok () { b with reader := b.reader.passed x, out := .real x.toDouble } :=
    fun env o x inp rest fuel f b hallowed htags hdrop =>
      decodeField_double (if_neg (not_not.2 htags)) (Bool.and_false _) rfl
        (expectReal_item hdrop hallowed)
  constructor
  · intro hgives
    obtain ⟨-, hvalue, hallowed⟩ := itemOf_spec (o := {}) ⟨hlo, hhi⟩
    have hdrop : (itemOf i ⟨hlo, hhi⟩).bytes.drop (⟨{}, .null⟩ : Build State).reader.pos =
      (itemOf i ⟨hlo, hhi⟩).bytes ++ [] := by
      rw [List.append_nil]
      rfl
    have hout := hgives default {} _ _ _ 0 noField ⟨{}, .null⟩ hvalue hallowed rfl hdrop
    rw [hrun default {} _ _ _ 0 noField ⟨{}, .null⟩ hallowed rfl hdrop] at hout
    injection hout with _ hout
    injection hout with _ hout
    injection hout with hout
    have hiff := (itemOf i ⟨hlo, hhi⟩).toDouble_iff (by rw [hvalue]; exact hlo)
    rw [hvalue] at hiff
    exact hiff.1 hout
  · rintro honce env o x inp rest fuel f b rfl hallowed htags hdrop
    rw [hrun env o x inp rest fuel f b hallowed htags hdrop, (x.toDouble_iff hlo).2 honce]

/-- Both formats give an integer rounded once to the member, except for the negative ones that the
reader of CBOR rounds twice. -/
theorem integers_to_doubles_iff
    (cc : Json.Charconv) (hcc : cc.Correct) (i : Int) (hlo : -2 ^ 64 ≤ i) (hhi : i < 2 ^ 64) :
    Json.Gives cc i (nearestDouble i) ∧ Cbor.Gives i (nearestDouble i) ↔ ¬ RoundedTwice i := by
  rw [← Cbor.gives_iff hlo hhi]
  exact and_iff_right (Json.gives_nearest hcc hlo hhi)

theorem integers_to_doubles_iff_least :
    Json.Gives Json.exactConv (-2 ^ 64) (nearestDouble (-2 ^ 64)) ∧
      Cbor.Gives (-2 ^ 64) (nearestDouble (-2 ^ 64)) ↔
      ¬ RoundedTwice (-2 ^ 64) :=
  integers_to_doubles_iff Json.exactConv Json.exactConv_correct (-2 ^ 64) (by decide) (by decide)

/-- The argument of the item is a tie that goes down, and one less is a tie again. -/
theorem integers_to_doubles_tie :
    ¬ ∀ cc : Json.Charconv, cc.Correct → ∀ i : Int, -2 ^ 64 ≤ i → i < 2 ^ 64 →
      Json.Gives cc i (nearestDouble i) ∧ Cbor.Gives i (nearestDouble i) := by
  intro hall
  have hgives :=
    (hall Json.exactConv Json.exactConv_correct (-(2 ^ 53 + 2)) (by decide) (by decide)).2
  exact (Cbor.gives_iff (by decide) (by decide)).1 hgives (by decide)

end VCodec
