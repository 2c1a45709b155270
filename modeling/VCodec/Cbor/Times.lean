import VCodec.Cbor.Ahead
import VCodec.Cbor.Floats
import VCodec.Cbor.Integers
import VCodec.Core.Chrono
import VCodec.Core.Traverse

/-!
# Time points

The codec of time points reads a count of seconds, in an integer or in a double, and converts it to
ticks without a check. `decodeTime_sound_iff` says for which payloads the conversion is defined and
exact, and `time_roundtrip_iff` which milliseconds come back from what is written for them.
-/

namespace VCodec.Cbor

open Ieee D
open EStateM (Result)

variable {env : Env} {o : Options} {inp rest : Bytes} {s : State}

/-! ### Payloads -/

/-- An item of an integer, or a float of one of three widths. -/
inductive Payload
  | int (x : IntItem)
  | real (h : Head) (hai : 25 ≤ h.ai ∧ h.ai ≤ 27)

namespace Payload

def major : Payload → Major
  | int x => x.major
  | real _ _ => .simple

def head : Payload → Head
  | int x => x.head
  | real h _ => h

def bytes (p : Payload) : Bytes := p.head.bytes p.major

/-- Strict decoding lets the preferred forms through. -/
def Allowed (o : Options) : Payload → Prop
  | int x => x.Allowed o
  | real h _ => o.requireDeterministic = true → PreferredFloat h.ai h.value

/-- The ticks that the codec converts the payload to. -/
def ticks (d : Duration) : Payload → Option Int
  | int x => d.ofSeconds x.value
  | real h _ => d.ofReal (floatOf h.ai h.value)

/-- The ticks are the seconds of the payload, truncated. -/
def Denotes (d : Duration) (c : Int) : Payload → Prop
  | int x => c = x.value * d.den
  | real h _ =>
    (floatOf h.ai h.value).mag < doubleFormat.infMag ∧ c = truncProduct (floatOf h.ai h.value) d.den

/-- The conversion is in range, and exact. Integers beyond 64 bits are refused before. -/
def Fits (d : Duration) : Payload → Prop
  | int x =>
    -2 ^ 63 ≤ x.value ∧ x.value < 2 ^ 63 → -2 ^ 63 ≤ x.value * d.den ∧ x.value * d.den < 2 ^ 63
  | real h _ =>
    (floatOf h.ai h.value).mag < doubleFormat.infMag ∧ ProductKept (floatOf h.ai h.value) d.den ∧
      -2 ^ 63 ≤ truncProduct (floatOf h.ai h.value) d.den ∧
        truncProduct (floatOf h.ai h.value) d.den < 2 ^ 63

end Payload

theorem peek_head {m : Major} {h : Head} (hm : m ≠ .tag)
    (hdrop : inp.drop s.pos = h.bytes m ++ rest) :
    peek o inp s = kindOf o (h.parsed m) := by
  have hlen := length_drop hdrop
  rw [List.length_append, Head.bytes_length] at hlen
  obtain ⟨fuel, hfuel⟩ : ∃ fuel, inp.length - s.pos = fuel + 1 := ⟨inp.length - s.pos - 1, by omega⟩
  have hleaf : (Item.leaf m h).bytes = h.bytes m := by simp only [Item.bytes]
  rw [peek, hfuel, peekFrom_front (x := .leaf m h) hm (by rw [hleaf]; exact hdrop)]
  rfl

/-! ### Reading a payload -/

section Read

variable {f : FieldMeta} {d : Duration} {b : Build State} {fuel : Nat}

theorem decodeTime_int (env : Env) (fuel : Nat) (hf : 0 ∉ f.tags)
    (hkind : peek o inp b.reader = .uint ∨ peek o inp b.reader = .sint) :
    decodeValue env (reader env o inp) (fuel + 1) f (.time d) b =
      (do let i ← call (expectSint o inp); setOut (env.timeOfSeconds d i) : D State Unit) b := by
  have hpeek : call (reader env o inp).peek b = .ok (peek o inp b.reader) b := rfl
  rw [decodeValue]
  show decodeTime env (reader env o inp) f d b = _
  rw [decodeTime, if_neg hf, Run.bind_of_ok hpeek, if_pos hkind]
  rfl

theorem decodeTime_real (env : Env) (fuel : Nat) (hf : 0 ∉ f.tags)
    (hkind : ¬ (peek o inp b.reader = .uint ∨ peek o inp b.reader = .sint)) :
    decodeValue env (reader env o inp) (fuel + 1) f (.time d) b =
      (do let x ← call (expectReal o inp); setOut (env.timeOfReal d x) : D State Unit) b := by
  have hpeek : call (reader env o inp).peek b = .ok (peek o inp b.reader) b := rfl
  rw [decodeValue]
  show decodeTime env (reader env o inp) f d b = _
  rw [decodeTime, if_neg hf, Run.bind_of_ok hpeek, if_neg hkind]
  rfl

/-- Decoding the payload fails, or the conversion is defined and the member has the ticks that the
payload denotes. -/
def Payload.Sound (p : Payload) (env : Env) (o : Options) (inp : Bytes) (fuel : Nat) (f : FieldMeta)
    (d : Duration) (b : Build State) : Prop :=
  match decodeValue env (reader env o inp) (fuel + 1) f (.time d) b with
  | .ok _ b' => ∃ c, p.ticks d = some c ∧ p.Denotes d c ∧ b'.out = .int c
  | .error (.error _) _ => True
  | .error _ _ => False

theorem sound_of_error {p : Payload} {e : Error} {b' : Build State}
    (h : decodeValue env (reader env o inp) (fuel + 1) f (.time d) b = .error (.error e) b') :
    p.Sound env o inp fuel f d b := by
  rw [Payload.Sound, h]
  trivial

theorem sound_of_ok {p : Payload} {b' : Build State}
    (h : decodeValue env (reader env o inp) (fuel + 1) f (.time d) b = .ok () b') :
    p.Sound env o inp fuel f d b ↔ ∃ c, p.ticks d = some c ∧ p.Denotes d c ∧ b'.out = .int c := by
  rw [Payload.Sound, h]

theorem kind_int (x : IntItem) (hdrop : inp.drop s.pos = x.bytes ++ rest) :
    peek o inp s = .uint ∨ peek o inp s = .sint := by
  rw [peek_head x.major_ne_tag hdrop, IntItem.major]
  cases x.negative with
  | true => exact .inr rfl
  | false => exact .inl rfl

theorem kind_real {h : Head} (hai : 25 ≤ h.ai ∧ h.ai ≤ 27)
    (hdrop : inp.drop s.pos = h.bytes .simple ++ rest) :
    peek o inp s = .real := by
  rw [peek_head Major.noConfusion hdrop, kindOf]
  have hparsed : (h.parsed .simple).ai = h.ai := rfl
  rw [← hparsed] at hai
  show (if (h.parsed .simple).ai = 20 ∨ (h.parsed .simple).ai = 21 then Kind.boolean else _) = _
  rw [if_neg (by omega), if_neg (by omega), if_neg (by omega), if_pos hai]

theorem sound_int (henv : env.Clocks) (hf : 0 ∉ f.tags) (hnum : d.num = 1)
    (hint : d.integral = true) (x : IntItem) (hdrop : inp.drop b.reader.pos = x.bytes ++ rest) :
    (Payload.int x).Sound env o inp fuel f d b ↔
      ((Payload.int x).Allowed o → (Payload.int x).Fits d) := by
  have hrun := decodeTime_int (d := d) env fuel hf (kind_int (o := o) x hdrop)
  by_cases hallowed : x.Allowed o
  · have hread := expectSint_item hdrop hallowed
    by_cases hrange : -2 ^ 63 ≤ x.value ∧ x.value < 2 ^ 63
    · rw [if_pos hrange] at hread
      rw [Run.bind_of_ok (call_of_ok hread)] at hrun
      rw [sound_of_ok hrun]
      constructor
      · rintro ⟨c, hticks, -, -⟩ - -
        exact ((ofSeconds_eq_some hnum).1 hticks).1
      · intro hfits
        have hticks := (ofSeconds_eq_some hnum).2 ⟨hfits hallowed hrange, rfl⟩
        exact ⟨_, hticks, rfl, henv.ofSeconds d _ _ hint hticks⟩
    · rw [if_neg hrange] at hread
      obtain ⟨e, hread, -⟩ := hread
      rw [Run.bind_of_error (call_of_error hread)] at hrun
      exact iff_of_true (sound_of_error hrun) fun _ h => absurd h hrange
  · obtain ⟨e, hhead, -⟩ := itemHead_long hdrop hallowed (str "integer")
    have hread : expectSint o inp b.reader = .error e b.reader := Run.bind_of_error hhead _
    rw [Run.bind_of_error (call_of_error hread)] at hrun
    exact iff_of_true (sound_of_error hrun) fun h => absurd h hallowed

theorem sound_real (henv : env.Clocks) (hf : 0 ∉ f.tags) (hnum : d.num = 1)
    (hint : d.integral = true) {h : Head} (hai : 25 ≤ h.ai ∧ h.ai ≤ 27)
    (hdrop : inp.drop b.reader.pos = h.bytes .simple ++ rest) :
    (Payload.real h hai).Sound env o inp fuel f d b ↔
      ((Payload.real h hai).Allowed o → (Payload.real h hai).Fits d) := by
  have hkind := kind_real (o := o) hai hdrop
  have hrun := decodeTime_real (d := d) env fuel hf (by rw [hkind]; exact not_or.2 ⟨nofun, nofun⟩)
  rcases expectReal_float (D := o) hdrop hai with ⟨hallowed, hread⟩ | ⟨hallowed, e, t, hread, -⟩
  · rw [Run.bind_of_ok (call_of_ok hread)] at hrun
    rw [sound_of_ok hrun]
    constructor
    · rintro ⟨c, hticks, ⟨hfin, rfl⟩, -⟩ -
      exact (ofReal_iff hnum).1 ⟨hfin, hticks⟩
    · intro hfits
      obtain ⟨hfin, hticks⟩ := (ofReal_iff hnum).2 (hfits hallowed)
      exact ⟨_, hticks, ⟨hfin, rfl⟩, henv.ofReal d _ _ hint hticks⟩
  · rw [Run.bind_of_error (call_of_error hread)] at hrun
    exact iff_of_true (sound_of_error hrun) fun h => absurd h hallowed

end Read

/-- Decoding a payload into a time point of whole parts of a second is sound exactly where the
product is in range and its rounding does not reach another integer. -/
theorem decodeTime_sound_iff
    (env : Env) (henv : env.Clocks) (o : Options) (inp rest : Bytes) (fuel : Nat) (f : FieldMeta)
    (hf : 0 ∉ f.tags) (d : Duration) (hnum : d.num = 1) (hint : d.integral = true) (p : Payload)
    (b : Build State) (hdrop : inp.drop b.reader.pos = p.bytes ++ rest) :
    p.Sound env o inp fuel f d b ↔ (p.Allowed o → p.Fits d) := by
  cases p with
  | int x => exact sound_int henv hf hnum hint x hdrop
  | real h hai => exact sound_real henv hf hnum hint hai hdrop

/-- Half a second of milliseconds. -/
theorem decodeTime_sound_iff_half :
    (Payload.real ⟨.two, 0x3800, by decide⟩ (by decide)).Sound clockEnv {}
      [0xF9, 0x38, 0x00] 0 noField milliseconds ⟨{}, .null⟩ ↔
      ((Payload.real ⟨.two, 0x3800, by decide⟩ (by decide)).Allowed {} →
        (Payload.real ⟨.two, 0x3800, by decide⟩ (by decide)).Fits milliseconds) :=
  decodeTime_sound_iff clockEnv clockEnv_clocks {} [0xF9, 0x38, 0x00] [] 0 noField
    (by decide) milliseconds rfl rfl
    (.real ⟨.two, 0x3800, by decide⟩ (by decide)) ⟨{}, .null⟩ (by decide)

/-- The product of the largest integer of 64 bits overflows. -/
theorem decodeTime_overflow :
    ¬ ∀ (env : Env), env.Clocks → ∀ (o : Options) (inp rest : Bytes) (fuel : Nat) (f : FieldMeta),
      0 ∉ f.tags →
      ∀ d : Duration, d.num = 1 → d.integral = true → ∀ (p : Payload) (b : Build State),
        inp.drop b.reader.pos = p.bytes ++ rest → p.Sound env o inp fuel f d b := by
  intro hall
  have hdrop : (0x1B :: be 8 (2 ^ 63 - 1)).drop (⟨{}, .null⟩ : Build State).reader.pos =
      IntItem.bytes ⟨false, ⟨.eight, 2 ^ 63 - 1, by decide⟩⟩ ++ [] := by decide
  have hsound := hall clockEnv clockEnv_clocks {} _ [] 0 noField (by decide) milliseconds rfl rfl
    (.int ⟨false, ⟨.eight, 2 ^ 63 - 1, by decide⟩⟩) ⟨{}, .null⟩ hdrop
  have hfits := (sound_int clockEnv_clocks (by decide) rfl rfl _ hdrop).1 hsound
    (fun h => absurd h (by decide)) (by decide)
  exact absurd hfits (by decide)

/-! ### Milliseconds -/

theorem wholeSeconds_millis {c : Int} (hlt : c.natAbs < 2 ^ 50) :
    wholeSeconds (milliseconds.toReal c) =
      if c.natAbs % 1000 = 0 then some (signed (decide (c < 0)) (c.natAbs / 1000)) else none := by
  have hpos : 0 < 2 ^ doubleFormat.scale := Nat.two_pow_pos _
  obtain ⟨hneg, -, hunits⟩ := toReal_millis hlt
  obtain ⟨hiff, hroom⟩ := millis_whole hlt
  have hsmall : millisUnits c < 9000000000000000 * 2 ^ doubleFormat.scale := by
    generalize 2 ^ doubleFormat.scale = one at hroom
    omega
  rw [wholeSeconds, hunits, hneg]
  by_cases hwhole : c.natAbs % 1000 = 0
  · rw [if_pos ⟨hiff.2 hwhole, hsmall⟩, if_pos hwhole, millisUnits_whole hlt hwhole,
      Nat.mul_div_cancel _ hpos, signed]
  · rw [if_neg fun h => hwhole (hiff.1 h.1), if_neg hwhole]

theorem ofSeconds_millis {c : Int} (hlt : c.natAbs < 2 ^ 50) (hwhole : c.natAbs % 1000 = 0) :
    milliseconds.ofSeconds (signed (decide (c < 0)) (c.natAbs / 1000)) = some c := by
  have hthousand : c = signed (decide (c < 0)) (c.natAbs / 1000) * (milliseconds.den : Int) := by
    have hden : (milliseconds.den : Int) = 1000 := rfl
    rw [hden, signed]
    split
    · rename_i h
      have := of_decide_eq_true h
      omega
    · rename_i h
      have := of_decide_eq_false (Bool.not_eq_true _ ▸ h)
      omega
  refine (ofSeconds_eq_some rfl).2 ⟨?_, hthousand⟩
  rw [← hthousand]
  omega

/-- The writer keeps doubles, in a form that the reader lets through. -/
def KeepsDoubles (eo o : Options) : Prop :=
  eo.floats = .preferred ∨ (eo.floats = .double ∧ o.requireDeterministic = false)

/-- A member with the ticks `c'` is what is read back from what is written for `c` under tag 1. -/
def TimeComesBack (env : Env) (d : Duration) (c c' : Int) : Prop :=
  ∀ (eo o : Options) (f : FieldMeta) (w : Writer), KeepsDoubles eo o → f.tags = [] →
    ∃ bs, encodeFieldValue env (sink eo) f (encodeValue env (sink eo) f (.time d) (.int c))
      (.time d) (.int c) w =
        .ok () (((w.append (makeHead .tag 1)).modifyTop Frame.item).append bs) ∧
      ∀ (inp rest : Bytes) (fuel : Nat) (f' : FieldMeta) (b : Build State), f'.tags = [] →
        inp.drop b.reader.pos = makeHead .tag 1 ++ (bs ++ rest) →
          ∃ b', decodeFieldValue env (reader env o inp)
            (decodeValue env (reader env o inp) (fuel + 1) f') f' (.time d) b =
            .ok () b' ∧ b'.out = .int c'

def TimeRoundTrips (env : Env) (d : Duration) (c : Int) : Prop := TimeComesBack env d c c

theorem TimeComesBack.unique
    {d : Duration} {c c' c'' : Int} (h : TimeComesBack env d c c')
    (h' : TimeComesBack env d c c'') :
    c' = c'' := by
  obtain ⟨bs, hwrite, hread⟩ := h {} {} noField {} (.inl rfl) rfl
  obtain ⟨bs', hwrite', hread'⟩ := h' {} {} noField {} (.inl rfl) rfl
  have hbytes : bs = bs' := by
    rw [hwrite] at hwrite'
    injection hwrite' with _ hw
    injection hw with hout
    exact List.append_cancel_left hout
  subst hbytes
  obtain ⟨b, hb, hout⟩ := hread (makeHead .tag 1 ++ (bs ++ [])) [] 0 noField ⟨{}, .null⟩ rfl rfl
  obtain ⟨b', hb', hout'⟩ := hread' (makeHead .tag 1 ++ (bs ++ [])) [] 0 noField ⟨{}, .null⟩ rfl rfl
  rw [hb] at hb'
  cases hb'
  rw [hout] at hout'
  injection hout'

section Millis

variable {eo : Options} {f : FieldMeta} {w : Writer} {c : Int}

/-- A float item that keeps the double. -/
theorem exists_float {x : Double} (hx : x.isNan = false) (hkeeps : KeepsDoubles eo o) (w : Writer) :
    ∃ h : Head, (25 ≤ h.ai ∧ h.ai ≤ 27) ∧ floatOf h.ai h.value = x ∧
      (o.requireDeterministic = true → PreferredFloat h.ai h.value) ∧
      realField eo none x w = .ok () ((w.modifyTop Frame.item).append (h.bytes .simple)) := by
  rcases hkeeps with hpref | ⟨hdouble, hlax⟩
  · obtain ⟨h, hbytes, hai, hform, hback⟩ := preferredBytes_eq x
    have hlt := h.ai_lt
    refine ⟨h, ⟨hai, by omega⟩, hback hx, fun _ => hform, ?_⟩
    rw [← hbytes]
    show (writeReal x eo.floats) (w.modifyTop Frame.item) = _
    rw [hpref]
    rfl
  · refine ⟨⟨.eight, x.bits, x.bits_lt⟩, ⟨show 25 ≤ 27 by decide, show 27 ≤ 27 by decide⟩,
      Binary.ofBits_bits x, fun h => ?_, ?_⟩
    · rw [hlax] at h
      cases h
    · show (writeReal x eo.floats) (w.modifyTop Frame.item) = _
      rw [hdouble]
      rfl

/-- What is written for milliseconds. -/
theorem encode_millis (henv : env.Clocks) (hlt : c.natAbs < 2 ^ 50) (hf : f.tags = []) :
    encodeFieldValue env (sink eo) f (encodeValue env (sink eo) f (.time milliseconds) (.int c))
      (.time milliseconds) (.int c) w =
      (if c.natAbs % 1000 = 0 then sint (signed (decide (c < 0)) (c.natAbs / 1000))
        else realField eo none (milliseconds.toReal c)) (w.append (makeHead .tag 1)) := by
  have htags : (sink eo).traits.expectedTags env f (.time milliseconds) = [1] :=
    if_neg (not_not.2 hf)
  have hbulk : (sink eo).traits.bulkRange f (.time milliseconds) = false := Bool.and_false _
  have htag : [1].forM (sink eo).tag w = .ok () (w.append (makeHead .tag 1)) := rfl
  have hzero : 0 ∉ f.tags := by
    rw [hf]
    exact List.not_mem_nil
  have hvalue : encodeValue env (sink eo) f (.time milliseconds) (.int c) =
      if c.natAbs % 1000 = 0 then sint (signed (decide (c < 0)) (c.natAbs / 1000))
        else realField eo none (milliseconds.toReal c) := by
    rw [encodeValue]
    show encodeTime env (sink eo) f milliseconds (.int c) = _
    rw [encodeTime, if_neg hzero, if_neg (by decide), henv.toReal milliseconds c rfl,
      wholeSeconds_millis hlt]
    by_cases hwhole : c.natAbs % 1000 = 0
    · rw [if_pos hwhole, if_pos hwhole]
      rfl
    · rw [if_neg hwhole, if_neg hwhole]
      rfl
  rw [encodeFieldValue, htags, hbulk, if_neg Bool.false_ne_true, hvalue]
  · exact Run.bind_of_ok htag _
  all_goals
    intros
    rename_i h
    cases h

/-- A member under tag 1 reads the payload behind the tag. -/
theorem decodeField_time (env : Env) (fuel : Nat) {d : Duration} {b : Build State} {tail : Bytes}
    (hf : f.tags = []) (hdrop : inp.drop b.reader.pos = makeHead .tag 1 ++ tail) :
    decodeFieldValue env (reader env o inp) (decodeValue env (reader env o inp) (fuel + 1) f) f
      (.time d) b =
        decodeValue env (reader env o inp) (fuel + 1) f
          (.time d) { b with reader := b.reader.advance 1 } ∧
      inp.drop (b.reader.advance 1).pos = tail := by
  have htags : (reader env o inp).traits.expectedTags env f (.time d) = [1] := if_neg (not_not.2 hf)
  have hbulk : (reader env o inp).traits.bulkRange f (.time d) = false := Bool.and_false _
  have hhead : makeHead .tag 1 = (Head.short 1 (by decide)).bytes .tag := makeHead_eq (by decide)
  have hraw := rawHead_tagged (s := b.reader) (hhead ▸ hdrop)
  have hexpect : expectTags inp [1] b.reader = .ok ⟨⟩ (b.reader.advance 1) := by
    rw [expectTags, Run.bind_of_ok hraw, if_neg]
    · rfl
    · rintro (h | h)
      · exact h rfl
      · exact h rfl
  have hdecode : decodeTags (reader env o inp) f [1] b =
    .ok () { b with reader := b.reader.advance 1 } := by
    have hcall : call ((reader env o inp).expectTags [1]) b =
      .ok ⟨⟩ { b with reader := b.reader.advance 1 } := call_of_ok hexpect
    rw [decodeTags, if_neg (List.cons_ne_nil _ _)]
    exact Run.mapError_eq_ok.2 hcall
  constructor
  · rw [decodeFieldValue, htags, Run.bind_of_ok hdecode, decodeBulk, hbulk]
    · rfl
    · intro _ h
      cases h
  · have hlen : (makeHead .tag 1).length = 1 := rfl
    rw [← hlen]
    exact drop_add hdrop

/-- What the member reads back. -/
theorem millis_run (henv : env.Clocks) (hlt : c.natAbs < 2 ^ 50) :
    ∃ c', (c' = c ↔ ¬ MillisLost c) ∧ TimeComesBack env milliseconds c c' := by
  have hnotag : ∀ f : FieldMeta, f.tags = [] → 0 ∉ f.tags := fun f hf => by
    rw [hf]
    exact List.not_mem_nil
  by_cases hwhole : c.natAbs % 1000 = 0
  · -- whole seconds, in an integer
    have hkept : ¬ MillisLost c := by
      rintro ⟨-, hm, -⟩
      have hzero : c.natAbs * 2 ^ (61 - Nat.log2 c.natAbs) % 1000 = 0 := by
        rw [Nat.mul_mod, hwhole, Nat.zero_mul, Nat.zero_mod]
      omega
    refine ⟨c, iff_of_true rfl hkept, fun eo o f w hkeeps hf => ?_⟩
    have hbounds : -2 ^ 63 ≤ signed (decide (c < 0)) (c.natAbs / 1000) ∧
      signed (decide (c < 0)) (c.natAbs / 1000) < 2 ^ 63 :=
      signed_range.2 (.inl (by omega))
    have hrange : -2 ^ 64 ≤ signed (decide (c < 0)) (c.natAbs / 1000) ∧
      signed (decide (c < 0)) (c.natAbs / 1000) < 2 ^ 64 := by
      omega
    obtain ⟨hbytes, hvalue, hallowed⟩ := itemOf_spec (o := o) hrange
    refine ⟨intHead (signed (decide (c < 0)) (c.natAbs / 1000)), ?_,
      fun inp rest fuel f' b hf' hdrop => ?_⟩
    · rw [encode_millis henv hlt hf, if_pos hwhole]
      rfl
    · obtain ⟨hrun, hpayload⟩ := decodeField_time (o := o) (d := milliseconds) env fuel hf' hdrop
      rw [← hbytes] at hpayload
      have hread := expectSint_item (s := b.reader.advance 1) hpayload hallowed
      rw [hvalue, if_pos hbounds] at hread
      rw [hrun, decodeTime_int env fuel (hnotag f' hf') (kind_int _ hpayload),
        Run.bind_of_ok (call_of_ok hread)]
      exact ⟨_, rfl, henv.ofSeconds milliseconds _ _ rfl (ofSeconds_millis hlt hwhole)⟩
  · obtain ⟨hneg, hfin, -⟩ := toReal_millis hlt
    obtain ⟨c', hticks, hiff⟩ := ofReal_millis hlt
    refine ⟨c', hiff, fun eo o f w hkeeps hf => ?_⟩
    obtain ⟨h, hai, hvalue, hallowed, hwrite⟩ :=
      exists_float (Binary.isNan_of_lt hfin) hkeeps (w.append (makeHead .tag 1))
    refine ⟨h.bytes .simple, ?_, fun inp rest fuel f' b hf' hdrop => ?_⟩
    · rw [encode_millis henv hlt hf, if_neg hwhole, hwrite]
    · obtain ⟨hrun, hpayload⟩ := decodeField_time (o := o) (d := milliseconds) env fuel hf' hdrop
      have hkind := kind_real (o := o) (s := b.reader.advance 1) hai hpayload
      have hread : expectReal o inp (b.reader.advance 1) = .ok (milliseconds.toReal c) _ :=
        (expectReal_float (D := o) (s := b.reader.advance 1) hpayload hai).elim
          (fun hok => hvalue ▸ hok.2) fun hno =>
          absurd hallowed hno.1
      rw [hrun, decodeTime_real env fuel (hnotag f' hf')
        (by rw [hkind]; exact not_or.2 ⟨nofun, nofun⟩),
        Run.bind_of_ok (call_of_ok hread)]
      exact ⟨_, rfl, henv.ofReal milliseconds _ _ rfl hticks⟩

end Millis

/-- Milliseconds come back from what is written for them, unless they are lost. -/
theorem time_roundtrip_iff (env : Env) (henv : env.Clocks) (c : Int) (hlt : c.natAbs < 2 ^ 50) :
    TimeRoundTrips env milliseconds c ↔ ¬ MillisLost c := by
  obtain ⟨c', hiff, hback⟩ := millis_run henv hlt
  rw [← hiff]
  constructor
  · exact hback.unique
  · rintro rfl
    exact hback

theorem time_roundtrip_iff_second :
    TimeRoundTrips clockEnv milliseconds 1363896240500 ↔ ¬ MillisLost 1363896240500 :=
  time_roundtrip_iff clockEnv clockEnv_clocks 1363896240500 (by decide)

/-- A second and a millisecond come back as a second. -/
theorem time_roundtrip_1001 :
    ¬ ∀ (env : Env), env.Clocks → ∀ c :
      Int, c.natAbs < 2 ^ 50 → TimeRoundTrips env milliseconds c := by
  intro hall
  obtain ⟨c', hiff, hback⟩ :=
    millis_run clockEnv_clocks (show (1001 : Int).natAbs < 2 ^ 50 by decide)
  exact hiff.1 (hback.unique (hall clockEnv clockEnv_clocks 1001 (by decide))) (by decide)

end VCodec.Cbor
