import VCodec.Calls
import VCodec.Json.Reals
import VCodec.Json.Unambiguous
import VCodec.Json.Write

/-!
# What the writer writes

The calls that denote one value append one value of the grammar, and its tree is the one that the
calls denote, whatever the layout. A state of the writer is followed on the levels that are open:
what a value leaves behind is its text, and on the levels around it nothing has changed but that
they are not empty any more.
-/

namespace VCodec.Json

/-! ### Token trees -/

/-- What calls denote. A member of an array has no key. -/
inductive Token
  | null
  | boolean (b : Bool)
  | integer (i : Int)
  | real (d : Double)
  | text (t : Bytes)
  | container (isObject : Bool) (members : List (Option Bytes × Token))

mutual

/-- How deep the containers are nested. -/
def Token.height : Token → Nat
  | .container _ ms => Token.heightAll ms + 1
  | _ => 0

def Token.heightAll : List (Option Bytes × Token) → Nat
  | [] => 0
  | (_, x) :: ms => max x.height (Token.heightAll ms)

end

def Finite (d : Double) : Prop := d.mag < doubleFormat.infMag

instance (d : Double) : Decidable (Finite d) := inferInstanceAs (Decidable (_ < _))

/-- `json::as_string`. -/
def integerToken (f : FieldMeta) (i : Int) : Token :=
  if f.asString then .text (decimalInt i) else .integer i

/-- The text of a key. -/
inductive KeyText : SinkCall → Bytes → Prop
  | key {k : Bytes} (hk : Utf8.Valid k) : KeyText (.key k) k
  | preparedKey {k : Bytes} (hk : Utf8.Valid k) : KeyText (.preparedKey k) k
  | uint (n : Nat) : KeyText (.keyUint n) (decimal n)
  | sint (i : Int) : KeyText (.keySint i) (decimalInt i)

/-- The calls are those of the phrase, and denote the members: one value, one member of a container,
or all that are left. -/
inductive Denotes : Phrase → List SinkCall → List (Option Bytes × Token) → Prop
  | null : Denotes .value [.null] [(none, .null)]
  | boolean (b : Bool) : Denotes .value [.boolean b] [(none, .boolean b)]
  | uint (f : FieldMeta) {n : Nat} (hn : n < 2 ^ 64) :
      Denotes .value [.uint f n] [(none, integerToken f n)]
  | sint (f : FieldMeta) {i : Int} (hlo : -2 ^ 63 ≤ i) (hhi : i < 2 ^ 63) :
      Denotes .value [.sint f i] [(none, integerToken f i)]
  | real (f : FieldMeta) (d : Double) :
      Denotes .value [.real f d] [(none, if Finite d then .real d else .null)]
  | text (f : FieldMeta) {t : Bytes} (ht : Utf8.Valid t) :
      Denotes .value [.text f t] [(none, .text t)]
  | bytes (f : FieldMeta) (b : Bytes) :
      Denotes .value [.bytes f b] [(none, .text (encodeBytes (f.bytes.getD .base64) b))]
  | tag (n : Nat) {cs : List SinkCall} {x : Token} (h : Denotes .value cs [(none, x)]) :
      Denotes .value (.tag n :: cs) [(none, x)]
  | array (f : FieldMeta) (count : Option Nat) {cs : List SinkCall}
      {xs : List (Option Bytes × Token)}
    (h : Denotes (.rest false) cs xs) :
      Denotes .value (.beginArray f count :: (cs ++ [.endArray])) [(none, .container false xs)]
  | map {c : SinkCall} {count : Option Nat} {cs : List SinkCall} {xs : List (Option Bytes × Token)}
      (hc : c.BeginsMap count)
    (h : Denotes (.rest true) cs xs) :
      Denotes .value (c :: (cs ++ [.endMap])) [(none, .container true xs)]
  | element {cs : List SinkCall} {x : Token} (h : Denotes .value cs [(none, x)]) :
      Denotes (.member false) cs [(none, x)]
  | entry {c : SinkCall} {k : Bytes} {cs : List SinkCall} {x : Token} (hk : KeyText c k)
      (h : Denotes .value cs [(none, x)]) :
    Denotes (.member true) (c :: cs) [(some k, x)]
  | nil (b : Bool) : Denotes (.rest b) [] []
  | cons {b : Bool} {cs cs' : List SinkCall} {x : Option Bytes × Token}
      {xs : List (Option Bytes × Token)}
    (h : Denotes (.member b) cs [x]) (hs : Denotes (.rest b) cs' xs) :
      Denotes (.rest b) (cs ++ cs') (x :: xs)

mutual

/-- The literals of a tree stand for the numbers of the token tree: an integer is written out, a
double is what `from_chars` makes of its literal. -/
inductive Means (cc : Charconv) : Tree → Token → Prop
  | null : Means cc .null .null
  | boolean (b : Bool) : Means cc (.boolean b) (.boolean b)
  | integer {n : Number} (hwhole : n.Whole) : Means cc (.number n) (.integer n.intValue)
  | real {n : Number} {d : Double} (hd : cc.fromChars n.bytes = some d) :
      Means cc (.number n) (.real d)
  | text (t : Bytes) : Means cc (.text t) (.text t)
  | container (b : Bool) {ms : List (Option Bytes × Tree)} {xs : List (Option Bytes × Token)}
      (h : MeansAll cc ms xs) :
    Means cc (.container b ms) (.container b xs)

inductive MeansAll (cc : Charconv) : List (Option Bytes × Tree) → List (Option Bytes × Token) → Prop
  | nil : MeansAll cc [] []
  | cons (k : Option Bytes) {y : Tree} {x : Token} {ms : List (Option Bytes × Tree)}
      {xs : List (Option Bytes × Token)}
    (h : Means cc y x) (hs : MeansAll cc ms xs) : MeansAll cc ((k, y) :: ms) ((k, x) :: xs)

end

/-- `to_chars` prints every finite double as a number of the grammar that `from_chars` reads
back. -/
def Charconv.Prints (cc : Charconv) : Prop :=
  ∀ d, Finite d → ∃ n : Number, cc.toChars d = n.bytes ∧ cc.fromChars n.bytes = some d

/-! ### Literals -/

variable {cc : Charconv} {p : Options} {d : Nat}

theorem intPart_decimal (n : Nat) : IntPart (decimal n) := by
  by_cases hn : n = 0
  · exact .inl (by rw [hn]; rfl)
  refine .inr ⟨⟨decimal_ne_nil n, fun c hc => isDigit_decimal hc⟩, ?_⟩
  have hne : Nat.digits 10 n ≠ [] := Nat.digits_ne_nil_iff_ne_zero.2 hn
  have hlast : (Nat.digits 10 n).getLast hne ≠ 0 := Nat.getLast_digit_ne_zero 10 hn
  have hlt : (Nat.digits 10 n).getLast hne < 10 :=
    Nat.digits_lt_base (by decide) (List.getLast_mem hne)
  rw [decimal, if_neg hn, List.head?_map, List.head?_reverse, List.getLast?_eq_some_getLast hne]
  generalize (Nat.digits 10 n).getLast hne = m at hlast hlt
  interval_cases m <;> simp_all

/-- The literal of an integer. -/
def intLiteral (i : Int) : Number where
  minus := if i < 0 then [0x2D] else []
  int := decimal i.natAbs
  frac := []
  exp := []
  minus_ok := by split <;> simp [MinusPart]
  int_ok := intPart_decimal _
  frac_ok := fracPart_nil
  exp_ok := expPart_nil

theorem bytes_intLiteral (i : Int) : (intLiteral i).bytes = decimalInt i := by
  unfold Number.bytes intLiteral decimalInt
  split <;> simp

theorem whole_intLiteral (i : Int) : (intLiteral i).Whole := ⟨rfl, rfl⟩

theorem intValue_intLiteral (i : Int) : (intLiteral i).intValue = i := by
  have hvalue : (intLiteral i).intValue = if (if i < 0 then [0x2D] else []) =
    ([] : Bytes) then (i.natAbs : Int) else -i.natAbs := by
    rw [Number.intValue]
    exact if_congr Iff.rfl (congrArg _ (digitsValue_decimal _))
      (congrArg (fun n : Nat => -(n : Int)) (digitsValue_decimal _))
  rw [hvalue]
  by_cases hneg : i < 0
  · rw [if_pos hneg, if_neg (List.cons_ne_nil _ _)]
    omega
  · rw [if_neg hneg, if_pos rfl]
    omega

theorem value_quoted {t : Bytes} (ht : Utf8.Valid t) :
    Value p cc d (quoted (escaped t)) (.text t) := by
  have hdrop : (quoted (escaped t)).drop 0 = 0x22 :: (escaped t ++ 0x22 :: []) := rfl
  have hparse := @parseString_spells p (quoted (escaped t)) {} _ _ [] (spells_escaped t)
    (fun _ => valid_escaped ht) hdrop
  obtain ⟨k, hk, hpass⟩ := passes_parseString (at?_eq hdrop) hparse
  have hlength : (quoted (escaped t)).length = (escaped t).length + 2 := by simp [quoted]
  have hend : (quoted (escaped t)).drop ((escaped t).length + 2) = [] :=
    List.drop_of_length_le (by rw [hlength])
  have hbytes : quoted (escaped t) = k ++ (quoted (escaped t)).drop
    (0 + ((escaped t).length + 2)) := hpass.bytes
  rw [Nat.zero_add, hend, List.append_nil] at hbytes
  rw [hbytes]
  exact .text hk

/-- A byte that stands for itself in a string. -/
def Verbatim (c : UInt8) : Prop := needsEscape c = false ∧ c.toNat ≤ 0x7F

instance (c : UInt8) : Decidable (Verbatim c) := inferInstanceAs (Decidable (_ ∧ _))

theorem value_verbatim {t : Bytes} (ht : ∀ c ∈ t, Verbatim c) :
    Value p cc d (quoted t) (.text t) := by
  have hvalue : Value p cc d (quoted (escaped t)) (.text t) :=
    value_quoted (.of_ascii fun c hc => (ht c hc).2)
  rwa [escaped_self fun c hc => (ht c hc).1] at hvalue

theorem verbatim_decimalInt (i : Int) : ∀ c ∈ decimalInt i, Verbatim c := by
  rw [← bytes_intLiteral]
  exact Number.clean_bytes (whole_intLiteral i)

theorem verbatim_letter (url : Bool) {d : Nat} (hd : d < 64) : Verbatim (b64Letter url d) := by
  have hall : ∀ (url : Bool) (d : Fin 64), Verbatim (b64Letter url d) := by decide +kernel
  exact hall url ⟨d, hd⟩

theorem verbatim_hexDigit {d : Nat} (hd : d < 16) : Verbatim (hexDigits.getD d 0) := by
  have hall : ∀ d : Fin 16, Verbatim (hexDigits.getD d 0) := by decide +kernel
  exact hall ⟨d, hd⟩

theorem verbatim_base64Encode (url : Bool) (b : Bytes) : ∀ c ∈ base64Encode url b, Verbatim c := by
  rw [base64Encode_eq]
  intro c hc
  rcases List.mem_append.1 hc with hc | hc
  · obtain ⟨d, hd, rfl⟩ := List.mem_map.1 hc
    exact verbatim_letter url (Base64.digits_lt b d hd)
  · cases url with
    | true => cases hc
    | false =>
      rw [List.eq_of_mem_replicate hc]
      decide

/-- No text of bytes needs an escape. -/
theorem verbatim_encodeBytes (e : BytesEncoding) (b : Bytes) :
    ∀ c ∈ encodeBytes e b, Verbatim c := by
  cases e with
  | base64 => exact verbatim_base64Encode false b
  | base64url => exact verbatim_base64Encode true b
  | hex =>
    intro c hc
    obtain ⟨x, -, hx⟩ := List.mem_flatMap.1 hc
    have hlt := x.toNat_lt
    rcases List.mem_pair.1 hx with rfl | rfl
    · exact verbatim_hexDigit (by omega)
    · exact verbatim_hexDigit (by omega)

theorem value_integer {i : Int} (hlo : -2 ^ 63 ≤ i) (hhi : i < 2 ^ 64) :
    Value p cc d (decimalInt i) (.number (intLiteral i)) := by
  have hfits : (intLiteral i).Fits64 := by
    rw [Number.Fits64, intValue_intLiteral]
    exact ⟨hlo, hhi⟩
  have hkind := Number.scan_integer cc (whole_intLiteral i) hfits
  rw [← bytes_intLiteral]
  exact .number _ ((intLiteral i).inRange_iff.2 hkind)

theorem value_real {n : Number} {x : Double} (hx : cc.fromChars n.bytes = some x) :
    Value p cc d n.bytes (.number n) := by
  refine .number n (n.inRange_iff.2 ?_)
  by_cases hinteger : n.Whole ∧ n.Fits64
  · exact Number.scan_integer cc hinteger.1 hinteger.2
  · obtain ⟨overflow, hscan⟩ := Number.scan_real cc hinteger
    rw [hscan, Number.realScan, hx]
    exact Kind.noConfusion

theorem writeReal_finite {x : Double} (hx : Finite x) : writeReal cc x = cc.toChars x := if_pos hx

theorem writeReal_not_finite {x : Double} (hx : ¬ Finite x) : writeReal cc x = str "null" :=
  if_neg hx

/-! ### The state of the writer -/

/-- The levels below are as they were, and no key waits for its value. -/
structure Kept (levels : Nat) (w w' : Writer) : Prop where
  afterKey : w'.afterKey = false
  length : w'.first.length = w.first.length
  first : ∀ i < levels, w'.first.getD i false = w.first.getD i false

theorem Kept.trans {n m : Nat} {w w' w'' : Writer} (h : Kept n w w') (h' : Kept m w' w'')
    (hm : n ≤ m) : Kept n w w'' where
  afterKey := h'.afterKey
  length := h'.length.trans h.length
  first i hi := (h'.first i (Nat.lt_of_lt_of_le hi hm)).trans (h.first i hi)

/-- There is room for so many levels more, in the writer and in a reader. -/
structure Room (o p : Options) (w : Writer) (height : Nat) : Prop where
  levels : w.first.length = o.maxDepth + 2
  writer : w.depth + height ≤ o.maxDepth
  reader : w.depth + height ≤ p.maxDepth

section

variable {o : Options} {w : Writer}

theorem getD_setFirst (b : Bool) {i : Nat} (hi : i ≠ w.depth) :
    (w.setFirst b).first.getD i false = w.first.getD i false := by
  rw [Writer.setFirst, List.getD_eq_getElem?_getD, List.getD_eq_getElem?_getD,
    List.getElem?_set_ne hi.symm]

theorem isFirst_setFirst (b : Bool) (hlt : w.depth < w.first.length) :
    (w.setFirst b).isFirst = b := by
  rw [Writer.isFirst, Writer.setFirst, List.getD_eq_getElem?_getD, List.getElem?_set_self hlt]
  rfl

/-- A member goes on its own line, behind a comma if it is not the first. -/
theorem before_member (hkey : w.afterKey = false) (hdepth : 0 < w.depth) :
    w.before o = (if w.isFirst then w.setFirst false else w).append (separator o w) := by
  rw [Writer.before, hkey, if_neg Bool.false_ne_true, if_neg (Nat.ne_of_gt hdepth)]

theorem before_out (hkey : w.afterKey = false) (hdepth : 0 < w.depth) :
    (w.before o).out = w.out ++ separator o w := by
  rw [before_member hkey hdepth]
  cases w.isFirst <;> rfl

theorem before_kept (hkey : w.afterKey = false) (hdepth : 0 < w.depth) :
    Kept w.depth w (w.before o) := by
  rw [before_member hkey hdepth]
  cases w.isFirst with
  | true => exact ⟨hkey, List.length_set, fun i hi => getD_setFirst false (Nat.ne_of_lt hi)⟩
  | false => exact ⟨hkey, rfl, fun i _ => rfl⟩

theorem before_isFirst (hkey : w.afterKey = false) (hdepth : 0 < w.depth)
    (hlt : w.depth < w.first.length) :
    (w.before o).isFirst = false := by
  rw [before_member hkey hdepth]
  cases hfirst : w.isFirst with
  | true => exact isFirst_setFirst false hlt
  | false => exact hfirst

theorem blank_lineBreak (n : Nat) : Blank (lineBreak o n) := by
  unfold lineBreak
  split
  · intro c hc
    rcases List.mem_cons.1 hc with rfl | hc
    · rfl
    · rw [List.eq_of_mem_replicate hc]
      rfl
  · exact blank_nil

theorem openLevel_run (c : UInt8) (hroom : w.depth < o.maxDepth) :
    openLevel o c w = .ok ()
      ({ (w.before o).append [c] with depth := w.depth + 1 }.setFirst true) := by
  have hroom : ¬ o.maxDepth ≤ (w.before o).depth := by
    rw [before_depth]
    omega
  unfold openLevel
  rw [before_bind, Run.bind_of_ok (Run.get_apply _), if_neg hroom, ← before_depth o w]
  rfl

theorem closeLevel_run (c : UInt8) :
    closeLevel o c w = .ok ()
      ({ w with depth := w.depth - 1 }.append
      ((if w.isFirst then [] else lineBreak o (w.depth - 1)) ++ [c])) := by
  unfold closeLevel
  rw [Run.bind_of_ok (Run.get_apply _), Run.bind_of_ok (Run.set_apply _ _)]
  by_cases hbreak : o.pretty = true ∧ ¬ w.isFirst = true
  · rw [if_pos hbreak, lineBreak, if_neg hbreak.2, if_pos hbreak.1, ← Writer.append_append]
    rfl
  · rw [if_neg hbreak]
    have hnone : (if w.isFirst then [] else lineBreak o (w.depth - 1)) = [] := by
      rw [lineBreak]
      split_ifs <;> simp_all
    rw [hnone]
    rfl

end

/-! ### Runs -/

section

variable (cc) (o p : Options)

/-- What completes a container, behind its bracket or behind a member. -/
def Completed (b : Bool) (d : Nat) (first : Bool) (y : Bytes) (ms : List (Option Bytes × Tree)) :
    Prop :=
  if first then ∀ e, d = e + 1 → e < p.maxDepth →
    Value p cc e (openByte b :: y) (.container b ms) else Derives p cc (.rest b) d y ms

/-- The calls append a text of the grammar that denotes the members. -/
def Appends (height : Nat) (cs : List SinkCall) (ms : List (Option Bytes × Tree)) : Phrase → Prop
  | .value =>
    ∀ w : Writer, Room o p w height → ∃ v w', SinkCall.playAll (sink o cc) cs w = .ok () w' ∧
      w'.out = (w.before o).out ++ v ∧ w'.depth = w.depth ∧ Kept (w.depth + 1) (w.before o) w' ∧
        Derives p cc .value w.depth v ms
  | .member b => ∀ w : Writer, Room o p w height → w.afterKey = false → 0 < w.depth → ∃ x w',
      SinkCall.playAll (sink o cc) cs w = .ok () w' ∧
        w'.out = w.out ++ ((if w.isFirst then [] else [0x2C]) ++ x) ∧
      w'.depth = w.depth ∧ w'.isFirst = false ∧ Kept w.depth w w' ∧
        Derives p cc (.member b) w.depth x ms
  | .rest b => ∀ w : Writer, Room o p w height → w.afterKey = false → 0 < w.depth → ∃ y w',
      (SinkCall.playAll (sink o cc) cs >>= fun _ => closeLevel o (closeByte b)) w = .ok () w' ∧
        w'.out = w.out ++ y ∧
      w'.depth + 1 = w.depth ∧ Kept w.depth w w' ∧ Completed cc p b w.depth w.isFirst y ms

end

variable {o : Options} {n : Nat} {b : Bool} {cs cs' : List SinkCall}
    {ms : List (Option Bytes × Tree)}

theorem Room.mono {w : Writer} {m : Nat} (h : Room o p w m) (hn : n ≤ m) : Room o p w n :=
  ⟨h.levels, by have := h.writer; omega, by have := h.reader; omega⟩

theorem before_afterKey (w : Writer) : (w.before o).afterKey = false := by
  unfold Writer.before
  cases hkey : w.afterKey with
  | true => rfl
  | false =>
    rw [if_neg Bool.false_ne_true]
    split_ifs <;> exact hkey

theorem before_length (w : Writer) : (w.before o).first.length = w.first.length := by
  unfold Writer.before
  split_ifs
  · rfl
  · rfl
  · exact List.length_set
  · rfl

theorem Appends.mono {ph : Phrase} {m : Nat} (h : Appends cc o p n cs ms ph) (hn : n ≤ m) :
    Appends cc o p m cs ms ph := by
  cases ph with
  | value => exact fun w hw => h w (hw.mono hn)
  | member b => exact fun w hw => h w (hw.mono hn)
  | rest b => exact fun w hw => h w (hw.mono hn)

theorem appends_scalar {c : SinkCall} {bs : Bytes} {y : Tree}
    (hrun : ∀ w, c.play (sink o cc) w = .ok () ((w.before o).append bs))
    (hv : ∀ d, Value p cc d bs y) : Appends cc o p n [c] [(none, y)] .value := by
  intro w _
  rw [SinkCall.playAll_singleton, hrun]
  exact ⟨bs, _, rfl, rfl, before_depth o w, ⟨before_afterKey w, rfl, fun _ _ => rfl⟩, hv _⟩

theorem appends_tag (t : Nat) (h : Appends cc o p n cs ms .value) :
    Appends cc o p n (.tag t :: cs) ms .value := by
  intro w hw
  rw [SinkCall.playAll_cons]
  exact h w hw

theorem appends_container {c e : SinkCall} (hc : c.play (sink o cc) = openLevel o (openByte b))
    (he : e.play (sink o cc) = closeLevel o (closeByte b)) (h : Appends cc o p n cs ms (.rest b)) :
    Appends cc o p (n + 1) (c :: (cs ++ [e])) [(none, .container b ms)] .value := by
  intro w hw
  have hwriter := hw.writer
  have hreader := hw.reader
  let u : Writer := { (w.before o).append [openByte b] with depth := w.depth + 1 }
  have hlength : u.first.length = o.maxDepth + 2 := (before_length w).trans hw.levels
  have hlt : u.depth < u.first.length := by
    rw [hlength]
    exact Nat.lt_of_le_of_lt (show w.depth + 1 ≤ o.maxDepth by omega) (by omega)
  have hopen : openLevel o (openByte b) w = .ok () (u.setFirst true) := openLevel_run _ (by omega)
  have hroom : Room o p (u.setFirst true) n := by
    refine ⟨by rw [Writer.setFirst, List.length_set, hlength], ?_, ?_⟩
    · show w.depth + 1 + n ≤ o.maxDepth
      omega
    · show w.depth + 1 + n ≤ p.maxDepth
      omega
  obtain ⟨y, w', hrun, hout, hdepth, hkept, hdone⟩ :=
    h (u.setFirst true) hroom (before_afterKey w) (Nat.succ_pos _)
  refine ⟨openByte b :: y, w', ?_, ?_, Nat.succ.inj hdepth, ?_, ?_⟩
  · rw [SinkCall.playAll_cons, hc, Run.bind_of_ok hopen, SinkCall.playAll_append,
      SinkCall.playAll_singleton, he]
    exact hrun
  · rw [hout]
    exact List.append_assoc _ _ _
  · have hopened : Kept (w.depth + 1) (w.before o) (u.setFirst true) :=
      ⟨before_afterKey w, List.length_set, fun i hi => @getD_setFirst u true i (Nat.ne_of_lt hi)⟩
    exact hopened.trans hkept (Nat.le_refl _)
  · rw [Completed, isFirst_setFirst true hlt, if_pos rfl] at hdone
    exact hdone w.depth rfl (by omega)

theorem appends_element {y : Tree} (h : Appends cc o p n cs [(none, y)] .value) :
    Appends cc o p n cs [(none, y)] (.member false) := by
  intro w hw hkey hdepth
  obtain ⟨v, w', hrun, hout, hdepth', hkept, hv⟩ := h w hw
  refine ⟨lineBreak o w.depth ++ v, w', hrun, ?_, hdepth', ?_, ?_, .element (blank_lineBreak _) hv⟩
  · rw [hout, before_out hkey hdepth, separator, List.append_assoc, List.append_assoc]
  · rw [Writer.isFirst, hdepth', hkept.first _ (Nat.lt_succ_self _), ← before_depth o w]
    have hlevels := hw.levels
    have hwriter := hw.writer
    exact before_isFirst hkey hdepth (by omega)
  · exact (before_kept hkey hdepth).trans hkept (Nat.le_succ _)

/-- A key, and the value behind it. -/
theorem appends_entry {c : SinkCall} {k : Bytes} {y : Tree} (hk : Utf8.Valid k)
    (hrun : ∀ w, c.play (sink o cc) w = .ok () ((w.before o).keyed (quoted (escaped k) ++ colon o)))
    (h : Appends cc o p n cs [(none, y)] .value) :
    Appends cc o p n (c :: cs) [(some k, y)] (.member true) := by
  intro w hw hkey hdepth
  have hlevels := hw.levels
  have hwriter := hw.writer
  let u := (w.before o).keyed (quoted (escaped k) ++ colon o)
  have hdepthu : u.depth = w.depth := before_depth o w
  have hbefore : u.before o = (w.before o).append (quoted (escaped k) ++ colon o) := by
    have hafter := before_afterKey (o := o) w
    show { u with afterKey := false } = _
    rw [← hafter]
    rfl
  obtain ⟨v, w', hplay, hout, hdepth', hkept, hv⟩ := h u
    ⟨(before_length w).trans hlevels, by rw [hdepthu]; exact hwriter,
      by rw [hdepthu]; exact hw.reader⟩
  rw [hdepthu] at hdepth' hkept hv
  rw [hbefore] at hout hkept
  have hcolon : colon o = 0x3A :: (colon o).tail := by
    unfold colon
    split <;> rfl
  have hblank : Blank (colon o).tail := by
    unfold colon
    split
    · intro c hc
      rw [List.mem_singleton.1 hc]
      rfl
    · exact blank_nil
  have hquoted : Quoted p (quoted (escaped k)) k := value_text (@value_quoted cc p 0 k hk)
  refine ⟨lineBreak o w.depth ++ (quoted (escaped k) ++ ([] ++ 0x3A :: ((colon o).tail ++ v))), w',
    ?_, ?_, hdepth', ?_, ?_, ?_⟩
  · rw [SinkCall.playAll_cons, Run.bind_of_ok (hrun w)]
    exact hplay
  · have hbytes : ((w.before o).append (quoted (escaped k) ++ colon o)).out =
        (w.before o).out ++ (quoted (escaped k) ++ (0x3A :: (colon o).tail)) := by
          rw [← hcolon]; rfl
    rw [hout, hbytes, before_out hkey hdepth, separator]
    simp only [List.append_assoc, List.cons_append, List.nil_append]
  · rw [Writer.isFirst, hdepth', hkept.first _ (Nat.lt_succ_self _)]
    have hfirst := before_isFirst (o := o) hkey hdepth (by omega)
    rw [Writer.isFirst, before_depth] at hfirst
    exact hfirst
  · exact Kept.trans (before_kept hkey hdepth) ⟨hkept.afterKey, hkept.length, hkept.first⟩
      (Nat.le_succ _)
  · exact .entry (blank_lineBreak _) hquoted blank_nil hblank hv

theorem appends_nil (b : Bool) : Appends cc o p 0 [] [] (.rest b) := by
  intro w hw hkey hdepth
  refine ⟨(if w.isFirst then [] else lineBreak o (w.depth - 1)) ++ [closeByte b], _,
    closeLevel_run (closeByte b), rfl,
    Nat.sub_add_cancel hdepth, ⟨hkey, rfl, fun _ _ => rfl⟩, ?_⟩
  unfold Completed
  cases w.isFirst with
  | true => exact fun e _ hroom => .empty blank_nil hroom
  | false => exact .close (blank_lineBreak _)

theorem appends_cons {m : Option Bytes × Tree} (h : Appends cc o p n cs [m] (.member b))
    (hs : Appends cc o p n cs' ms (.rest b)) :
    Appends cc o p n (cs ++ cs') (m :: ms) (.rest b) := by
  intro w hw hkey hdepth
  obtain ⟨x, u, hrun, hout, hdepthu, hfirst, hkept, hx⟩ := h w hw hkey hdepth
  have hroom : Room o p u n :=
    ⟨hkept.length.trans hw.levels, by rw [hdepthu]; exact hw.writer,
      by rw [hdepthu]; exact hw.reader⟩
  obtain ⟨y, w', hrun', hout', hdepth', hkept', hy⟩ :=
    hs u hroom hkept.afterKey (by rw [hdepthu]; exact hdepth)
  rw [hdepthu] at hdepth' hkept' hy
  rw [Completed, hfirst, if_neg Bool.false_ne_true] at hy
  refine ⟨(if w.isFirst then [] else [0x2C]) ++ (x ++ y), w', ?_, ?_, hdepth',
    hkept.trans hkept' (Nat.le_refl _), ?_⟩
  · rw [SinkCall.playAll_append, bind_assoc, Run.bind_of_ok hrun]
    exact hrun'
  · rw [hout', hout, List.append_assoc, List.append_assoc]
  · unfold Completed
    cases w.isFirst with
    | true =>
      intro e he hroom
      rw [he] at hx hy
      have hfull : Value p cc e (openByte b :: (x ++ y)) (.container b (m :: ms)) :=
        .full hroom hx hy
      exact hfull
    | false =>
      have hcomma : Derives p cc (.rest b) w.depth ([] ++ 0x2C :: (x ++ y)) (m :: ms) :=
        .comma blank_nil hx hy
      exact hcomma

/-! ### The writer's text -/

theorem Token.height_single (k : Option Bytes) (x : Token) :
    Token.heightAll [(k, x)] = x.height := by
  rw [Token.heightAll, Token.heightAll, Nat.max_zero]

/-- An integer, in quotes if the member asks for them. -/
theorem integer_appends (f : FieldMeta) {c : SinkCall} {i : Int} (hlo : -2 ^ 63 ≤ i)
    (hhi : i < 2 ^ 64)
    (hrun : ∀ o w, c.play (sink o cc) w =
      .ok () ((Writer.before o w).append
      (if f.asString then quoted (decimalInt i) else decimalInt i))) :
    ∃ ms, MeansAll cc ms [(none, integerToken f i)] ∧
      ∀ o p, Appends cc o p (Token.heightAll [(none, integerToken f i)]) [c] ms .value := by
  unfold integerToken
  cases hquotes : f.asString with
  | true =>
    simp only [hquotes] at hrun
    exact ⟨_, .cons none (.text _) .nil, fun o p => appends_scalar (hrun o) fun _ =>
      value_verbatim (verbatim_decimalInt i)⟩
  | false =>
    simp only [hquotes] at hrun
    have hmeans : Means cc (.number (intLiteral i)) (.integer i) := by
      have hliteral := @Means.integer cc _ (whole_intLiteral i)
      rwa [intValue_intLiteral] at hliteral
    exact ⟨_, .cons none hmeans .nil, fun o p => appends_scalar (hrun o) fun _ =>
      value_integer hlo hhi⟩

theorem valid_decimalInt (i : Int) : Utf8.Valid (decimalInt i) :=
  .of_ascii fun c hc => (verbatim_decimalInt i c hc).2

theorem escaped_decimalInt (i : Int) : escaped (decimalInt i) = decimalInt i :=
  escaped_self fun c hc => (verbatim_decimalInt i c hc).1

theorem KeyText.valid {c : SinkCall} {k : Bytes} (h : KeyText c k) : Utf8.Valid k := by
  cases h with
  | key hk => exact hk
  | preparedKey hk => exact hk
  | uint n => exact decimalInt_nat n ▸ valid_decimalInt n
  | sint i => exact valid_decimalInt i

theorem KeyText.run {c : SinkCall} {k : Bytes} (h : KeyText c k) (w : Writer) :
    c.play (sink o cc) w = .ok () ((w.before o).keyed (quoted (escaped k) ++ colon o)) := by
  cases h with
  | key hk => exact key_of_valid o w fun _ => hk
  | preparedKey hk => exact preparedKey_run o w _
  | uint n =>
    rw [← decimalInt_nat, escaped_decimalInt, decimalInt_nat]
    exact before_bind o w _
  | sint i =>
    rw [escaped_decimalInt]
    exact before_bind o w _

/-- What the calls denote is what they append, in every layout. -/
theorem Denotes.appends (hcc : cc.Prints) {ph : Phrase} {xs : List (Option Bytes × Token)}
    (h : Denotes ph cs xs) :
    ∃ ms, MeansAll cc ms xs ∧ ∀ o p, Appends cc o p (Token.heightAll xs) cs ms ph := by
  induction h with
  | null =>
    exact ⟨_, .cons none .null .nil, fun o p => appends_scalar (fun w => before_bind o w _) fun _ =>
      .word .null⟩
  | boolean b =>
    refine ⟨_, .cons none (.boolean b) .nil,
      fun o p => appends_scalar (fun w => before_bind o w _) fun _ => ?_⟩
    cases b with
    | true => exact .word .true
    | false => exact .word .false
  | uint f hn =>
    refine integer_appends f (by omega) (by omega) fun o w => ?_
    rw [decimalInt_nat]
    exact before_bind o w _
  | sint f hlo hhi => exact integer_appends f hlo (by omega) fun o w => before_bind o w _
  | real f d =>
    by_cases hd : Finite d
    · obtain ⟨n, hprint, hread⟩ := hcc d hd
      rw [if_pos hd]
      refine ⟨_, .cons none (.real hread) .nil,
        fun o p => appends_scalar (fun w => before_bind o w _) fun _ => ?_⟩
      rw [writeReal_finite hd, hprint]
      exact value_real hread
    · rw [if_neg hd]
      refine ⟨_, .cons none .null .nil,
        fun o p => appends_scalar (fun w => before_bind o w _) fun _ => ?_⟩
      rw [writeReal_not_finite hd]
      exact .word .null
  | text f ht =>
    refine ⟨_, .cons none (.text _) .nil, fun o p => appends_scalar (fun w => ?_) fun _ =>
      value_quoted ht⟩
    exact (before_bind o w _).trans (putString_of_valid o _ fun _ => ht)
  | bytes f b =>
    exact ⟨_, .cons none (.text _) .nil,
      fun o p => appends_scalar (fun w => before_bind o w _) fun _ =>
      value_verbatim (verbatim_encodeBytes _ b)⟩
  | tag t h ih =>
    obtain ⟨ms, hms, happends⟩ := ih
    exact ⟨ms, hms, fun o p => appends_tag t (happends o p)⟩
  | array f count h ih =>
    obtain ⟨ms, hms, happends⟩ := ih
    refine ⟨_, .cons none (.container false hms) .nil, fun o p => ?_⟩
    rw [Token.height_single, Token.height]
    exact appends_container rfl rfl (happends o p)
  | map hc h ih =>
    obtain ⟨ms, hms, happends⟩ := ih
    refine ⟨_, .cons none (.container true hms) .nil, fun o p => ?_⟩
    rw [Token.height_single, Token.height]
    exact appends_container (by cases hc <;> rfl) rfl (happends o p)
  | element h ih =>
    obtain ⟨ms, hms, happends⟩ := ih
    cases hms with
    | cons _ hy hnil =>
      cases hnil
      exact ⟨_, .cons none hy .nil, fun o p => appends_element (happends o p)⟩
  | entry hk h ih =>
    obtain ⟨ms, hms, happends⟩ := ih
    cases hms with
    | cons _ hy hnil =>
      cases hnil
      exact ⟨_, .cons (some _) hy .nil, fun o p => appends_entry hk.valid hk.run (happends o p)⟩
  | nil b => exact ⟨[], .nil, fun o p => appends_nil b⟩
  | @cons b cs cs' x xs h hs ih ihs =>
    obtain ⟨ms, hms, happends⟩ := ih
    obtain ⟨ms', hms', happends'⟩ := ihs
    cases hms with
    | cons k hy hnil =>
      cases hnil
      refine ⟨_, .cons k hy hms', fun o p => ?_⟩
      rw [Token.height_single] at happends
      rw [Token.heightAll]
      exact appends_cons ((happends o p).mono (Nat.le_max_left _ _))
        ((happends' o p).mono (Nat.le_max_right _ _))

/-- The calls of one value append one value of the grammar, in every layout. It is accepted with
nothing left over, and it has one tree, which stands for what the calls denote and is the same in
every layout. -/
theorem writes_value (hcc : cc.Prints) {x : Token} (h : Denotes .value cs [(none, x)]) :
    ∃ y, Means cc y x ∧ ∀ (o p : Options) (out : Bytes), x.height ≤ o.maxDepth →
      x.height ≤ p.maxDepth →
      ∃ v w, SinkCall.playAll (sink o cc) cs (startWriter o out) = .ok () w ∧ w.out = out ++ v ∧
        skipValue p cc v {} = .ok () { pos := v.length } ∧ ∀ z, Value p cc 0 v z ↔ z = y := by
  obtain ⟨ms, hms, happends⟩ := h.appends hcc
  cases hms with
  | @cons _ y _ _ _ hy hnil =>
    cases hnil
    refine ⟨y, hy, fun o p out hwriter hreader => ?_⟩
    have hroom : Room o p (startWriter o out) (Token.heightAll [(none, x)]) := by
      rw [Token.height_single]
      exact ⟨List.length_replicate, by rw [startWriter, Nat.zero_add]; exact hwriter,
        by rw [startWriter, Nat.zero_add]; exact hreader⟩
    obtain ⟨v, w, hrun, hout, -, -, hv⟩ := happends o p (startWriter o out) hroom
    have hskip := @skipValue_at p cc v {} [] v [] y (List.append_nil v).symm blank_nil hv fun n _ =>
      n.ends_nil
    rw [List.nil_append, State.advance, Nat.zero_add] at hskip
    exact ⟨v, w, hrun, hout, hskip, fun z =>
      ⟨fun hz => congrArg Prod.snd (List.singleton_inj.1 (Derives.unique hz hv)),
      fun hz => hz ▸ hv⟩⟩

/-! ### A conversion -/

/-- The value of a double in units of a negative power of ten, which are finer than its own. -/
def decimalUnits (d : Double) : Nat := doubleFormat.units d.mag * 5 ^ doubleFormat.scale

/-- The exact value of a double, written out. -/
def unitLiteral (d : Double) : Number where
  minus := if d.neg then [0x2D] else []
  int := decimal (decimalUnits d)
  frac := []
  exp := 0x65 :: 0x2D :: decimal doubleFormat.scale
  minus_ok := by split <;> simp [MinusPart]
  int_ok := intPart_decimal _
  frac_ok := fracPart_nil
  exp_ok := by
    refine .inr ⟨0x65, [0x2D], decimal doubleFormat.scale, rfl, .inr ⟨0x2D, rfl, rfl⟩,
      ⟨decimal_ne_nil _, fun c hc => isDigit_decimal hc⟩, rfl⟩

/-- `to_chars` without rounding. -/
def unitConv : Charconv := { exactConv with toChars := fun d => (unitLiteral d).bytes }

theorem expValue_unitLiteral (d : Double) :
    (unitLiteral d).expValue = -(doubleFormat.scale : Int) := by
  have hdigits : (unitLiteral d).expDigits = decimal doubleFormat.scale := rfl
  rw [Number.expValue, hdigits, digitsValue_decimal]
  rfl

theorem mantissa_unitLiteral (d : Double) : (unitLiteral d).mantissa = decimalUnits d := by
  have hint : (unitLiteral d).int = decimal (decimalUnits d) := by rw [unitLiteral]
  have hfrac : (unitLiteral d).fracDigits = [] := rfl
  rw [Number.mantissa, hint, hfrac, List.append_nil, digitsValue_decimal]

theorem rounded_unitLiteral {d : Double} (hd : Finite d) : (unitLiteral d).rounded = d := by
  have hscale : (unitLiteral d).scale = -(doubleFormat.scale : Int) := by
    have hfrac : (unitLiteral d).fracDigits = [] := rfl
    rw [Number.scale, expValue_unitLiteral, hfrac, List.length_nil, Int.natCast_zero, Int.sub_zero]
  have hneg : decide ((unitLiteral d).minus ≠ []) = d.neg := by
    have hminus : (unitLiteral d).minus = if d.neg then [0x2D] else [] := rfl
    rw [hminus]
    cases d.neg <;> rfl
  rw [Number.rounded, hneg, Number.num, Number.den, mantissa_unitLiteral, hscale,
    Int.toNat_neg_natCast, Int.neg_neg, Int.toNat_natCast,
    pow_zero, Nat.mul_one]
  exact Ieee.Binary.ofRatio_eq (Nat.pow_pos (by decide)) (Nat.le_of_lt hd)
    (by rw [decimalUnits, Nat.mul_assoc, ← Nat.mul_pow])

theorem unitConv_prints : unitConv.Prints := by
  intro d hd
  refine ⟨unitLiteral d, rfl, ?_⟩
  have hover : ¬ (unitLiteral d).Overflows := by
    rw [Number.Overflows, rounded_unitLiteral hd, Ieee.Binary.isInf, decide_eq_true_eq]
    exact Nat.ne_of_lt hd
  have hunder : ¬ (unitLiteral d).Underflows := by
    rw [Number.Underflows, rounded_unitLiteral hd, mantissa_unitLiteral, decimalUnits]
    rintro ⟨hzero, hne⟩
    rw [hzero, Ieee.Format.units_of_subnormal (Nat.two_pow_pos _), Nat.zero_mul] at hne
    exact hne rfl
  have hread := exactConv_correct (unitLiteral d)
  rw [if_neg (not_or.2 ⟨hover, hunder⟩), rounded_unitLiteral hd] at hread
  exact hread

theorem writes_value_nested :
    ∃ y, Means unitConv y
    (.container true [(some (str "a"), .integer 1),
    (some (str "-5"), .container false [(none, .null)])]) ∧
    ∀ (o p : Options) (out : Bytes), 2 ≤ o.maxDepth → 2 ≤ p.maxDepth →
      ∃ v w, SinkCall.playAll (sink o unitConv)
      [.beginMap noField none, .key (str "a"), .tag 2, .uint noField 1, .keySint (-5),
        .beginArray noField (some 1), .null, .endArray, .endMap] (startWriter o out) = .ok () w ∧
          w.out = out ++ v ∧
        skipValue p unitConv v {} = .ok () { pos := v.length } ∧ ∀ z, Value p unitConv 0 v z ↔
          z = y :=
  writes_value unitConv_prints
    (.map (.plain noField none)
    (.cons (.entry (.key (by decide)) (.tag 2 (.uint noField (by decide))))
    (.cons (.entry (.sint (-5)) (.array noField (some 1) (.cons (.element .null) (.nil false))))
      (.nil true))))

end VCodec.Json
