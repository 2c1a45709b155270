import VCodec.Core.Lands
import VCodec.Json.Dom
import VCodec.Json.Layout

/-!
# Documents in front of the JSON reader

Where a layout of a document lies ahead, whatever its blanks, every operation of the JSON reader
finds what the document has. So the reader keeps the laws that construction at the type of a value
is followed by.
-/

namespace VCodec.Json

/-! ### The format -/

/-- A key of a document, as it is read. -/
def shownKey : DocKey → EntryKey
  | .intName i => .int i
  | k => .text (writtenKey k)

/-- The text is written without an escape. -/
def plainText (t : Bytes) : Bool := t.all fun c => ¬ needsEscape c

/-- What the reader makes of what the writer has written. -/
def format : Format where
  traits := traits
  order := declared
  arrange es := es
  shown := shownKey
  real _ x := if Finite x then some x else none
  aliasesText _ t := plainText t
  aliasesBytes _ _ := false
  aliasesKey k := plainText (writtenKey k)

variable {o : Options} {cc : Charconv} {inp : Bytes} {s t u : State}

/-! ### Places -/

/-- The same place, but for the blanks there. -/
def Beside (inp : Bytes) (s t : State) : Prop :=
  (s.skipped inp).pos = (t.skipped inp).pos ∧ s.depth = t.depth

theorem Beside.refl (inp : Bytes) (s : State) : Beside inp s s := ⟨rfl, rfl⟩

theorem Beside.trans (h : Beside inp s t) (h' : Beside inp t u) : Beside inp s u :=
  ⟨h.1.trans h'.1, h.2.trans h'.2⟩

theorem beside_of_pos (hpos : s.pos = t.pos) (hdepth : s.depth = t.depth) : Beside inp s t := by
  refine ⟨?_, hdepth⟩
  rw [State.skipped_pos, State.skipped_pos, hpos]

theorem Beside.symm (h : Beside inp s t) : Beside inp t s := ⟨h.1.symm, h.2.symm⟩

theorem beside_skipped (inp : Bytes) (s : State) : Beside inp s (s.skipped inp) :=
  ⟨by rw [State.skipped_skipped], rfl⟩

theorem Passes.beside {bs : Bytes} (h : Beside inp s t) (hpass : Passes inp (t.skipped inp) u bs) :
    Passes inp (s.skipped inp) u bs where
  bytes := by
    rw [h.1]
    exact hpass.bytes
  pos := by
    rw [h.1]
    exact hpass.pos
  depth := hpass.depth.trans h.2.symm

/-- The document lies behind the blanks, up to the second place. -/
structure DocAt (o : Options) (cc : Charconv) (inp : Bytes) (d : Doc) (s u : State) : Prop where
  depth : s.depth ≤ o.maxDepth
  lies : ∃ v, Layout o cc s.depth d v ∧ Passes inp (s.skipped inp) u v ∧ Uncut v (inp.drop u.pos)

/-- The key, and the colon behind it. -/
structure KeyAt (o : Options) (inp : Bytes) (k : DocKey) (s u : State) : Prop where
  readable : ReadableKey o k
  lies : ∃ ws, Blank ws ∧ Passes inp (s.skipped inp) u
    (quoted (escaped (writtenKey k)) ++ (ws ++ [0x3A]))

/-- What the cursor has still to give up, to the end of the container. -/
structure MembersAt (o : Options) (cc : Charconv) (inp : Bytes) (b : Bool) (c : Cursor)
    (ms : List (Option DocKey × Doc)) (s u : State) :
    Prop where
  depth : s.depth ≤ o.maxDepth
  lies : ∃ y, Lays o cc (if c.first then .opened b else .rest b) s.depth y ms ∧
    Passes inp (s.skipped inp) { u with depth := u.depth + 1 } y

theorem DocAt.beside {d : Doc} (h : Beside inp s t) (hat : DocAt o cc inp d t u) :
    DocAt o cc inp d s u := by
  obtain ⟨hdepth, v, hv, hpass, hcut⟩ := hat
  exact ⟨h.2 ▸ hdepth, v, h.2 ▸ hv, hpass.beside h, hcut⟩

theorem KeyAt.beside {k : DocKey} (h : Beside inp s t) (hat : KeyAt o inp k t u) :
    KeyAt o inp k s u := by
  obtain ⟨hk, ws, hws, hpass⟩ := hat
  exact ⟨hk, ws, hws, hpass.beside h⟩

theorem MembersAt.beside {b : Bool} {c : Cursor} {ms : List (Option DocKey × Doc)}
    (h : Beside inp s t) (hat : MembersAt o cc inp b c ms t u) : MembersAt o cc inp b c ms s u := by
  obtain ⟨hdepth, y, hy, hpass⟩ := hat
  exact ⟨h.2 ▸ hdepth, y, h.2 ▸ hy, hpass.beside h⟩

/-! ### What a piece begins with -/

/-- The first byte behind the blanks. -/
def Piece.Head (ms : List (Option DocKey × Doc)) (tail : Bytes) : Piece → Prop
  | .value | .member _ => Begins tail
  | .opened b => if ms = [] then tail.head? = some (closeByte b) else Begins tail
  | .rest b => tail.head? = some (if ms = [] then closeByte b else 0x2C)

theorem Begins.exists_cons {bs : Bytes} (h : Begins bs) :
    ∃ c cs, bs = c :: cs ∧ isWs c = false := by
  obtain ⟨c, cs, hcons, hc, -⟩ := h
  exact ⟨c, cs, hcons, hc⟩

theorem Piece.Head.exists_cons {ph : Piece} {ms : List (Option DocKey × Doc)}
    {tail : Bytes} (h : ph.Head ms tail) :
    ∃ c cs, tail = c :: cs ∧ isWs c = false := by
  have hclose : ∀ b, isWs (closeByte b) = false := by decide
  cases ph with
  | value => exact Begins.exists_cons h
  | member b => exact Begins.exists_cons h
  | opened b =>
    rw [Piece.Head] at h
    split at h
    · obtain ⟨cs, hcs⟩ := List.head?_eq_some_iff.1 h
      exact ⟨_, cs, hcs, hclose b⟩
    · exact Begins.exists_cons h
  | rest b =>
    rw [Piece.Head] at h
    obtain ⟨cs, hcs⟩ := List.head?_eq_some_iff.1 h
    refine ⟨_, cs, hcs, ?_⟩
    split
    · exact hclose b
    · rfl

/-- The blanks in front can be taken away. -/
theorem Lays.split (hcc : cc.Prints) {ph : Piece} {n : Nat} {v : Bytes}
    {ms : List (Option DocKey × Doc)} (h : Lays o cc ph n v ms) :
    ∃ ws tail, v = ws ++ tail ∧ Blank ws ∧ Lays o cc ph n tail ms ∧ ph.Head ms tail := by
  have hvalue : ∀ {d : Doc} {v : Bytes}, Layout o cc n d v → Begins v := by
    intro d v hv
    obtain ⟨x, hx⟩ := layout_value hcc hv
    exact hx.begins
  induction h with
  | scalar hv hd => exact ⟨[], _, rfl, blank_nil, .scalar hv hd, hvalue (.scalar hv hd)⟩
  | tag h _ => exact ⟨[], _, rfl, blank_nil, .tag h, hvalue h⟩
  | container hd hroom h _ => exact ⟨[], _, rfl, blank_nil, .container hd hroom h, begins_open _ _⟩
  | element hws h _ => exact ⟨_, _, rfl, hws, .element blank_nil h, hvalue h⟩
  | entry hws hk hws' hws'' h _ =>
    exact ⟨_, _, rfl, hws, .entry blank_nil hk hws' hws'' h,
      (quoted_escaped (valid_writtenKey hk)).begins.append _⟩
  | empty hws => exact ⟨_, _, rfl, hws, .empty blank_nil, rfl⟩
  | close hws => exact ⟨_, _, rfl, hws, .close blank_nil, rfl⟩
  | comma hws hx hy _ _ => exact ⟨_, _, rfl, hws, .comma blank_nil hx hy, rfl⟩
  | first hx hy ihx _ =>
    obtain ⟨ws, tail, rfl, hws, htail, hhead⟩ := ihx hvalue
    refine ⟨ws, _, List.append_assoc _ _ _, hws, .first htail hy, ?_⟩
    rw [Piece.Head, if_neg (List.cons_ne_nil _ _)]
    exact Begins.append hhead _

theorem Passes.skip {ws tail : Bytes} (hws : Blank ws)
    (htail : ∃ c cs, tail = c :: cs ∧ isWs c = false) (hpass : Passes inp s u (ws ++ tail)) :
    Passes inp (s.skipped inp) u tail := by
  obtain ⟨c, cs, rfl, hc⟩ := htail
  have hdrop : inp.drop s.pos = ws ++ (c :: cs ++ inp.drop u.pos) := by
    rw [hpass.bytes, List.append_assoc]
  have hskip : s.skipped inp = s.advance ws.length := skipped_eq hws hdrop fun x hx => by
    cases hx; exact hc
  rw [hskip]
  refine ⟨drop_add_of hdrop, ?_, hpass.depth⟩
  rw [hpass.pos, List.length_append, ← Nat.add_assoc]
  rfl

/-- What is ahead is ahead behind the blanks. -/
theorem Lays.ahead (hcc : cc.Prints) {ph : Piece} {n : Nat} {v : Bytes}
    {ms : List (Option DocKey × Doc)} (h : Lays o cc ph n v ms) (hpass : Passes inp s u v) :
    ∃ tail, Lays o cc ph n tail ms ∧ ph.Head ms tail ∧ Passes inp (s.skipped inp) u tail := by
  obtain ⟨ws, tail, rfl, hws, htail, hhead⟩ := h.split hcc
  exact ⟨tail, htail, hhead, hpass.skip hws hhead.exists_cons⟩

theorem Passes.arrives {v : Bytes} (h : Passes inp s u v) : Beside inp (s.advance v.length) u :=
  beside_of_pos h.pos.symm h.depth.symm

theorem Passes.push {a b : Bytes} (h : Passes inp s u (a ++ b)) :
    Passes inp s (s.advance a.length) a ∧ Passes inp (s.advance a.length) u b := by
  have hdrop : inp.drop s.pos = a ++ (b ++ inp.drop u.pos) := by
    rw [h.bytes, List.append_assoc]
  refine ⟨.advance hdrop, drop_add_of hdrop, ?_, h.depth⟩
  rw [h.pos, List.length_append, ← Nat.add_assoc]
  rfl

/-! ### Scalars -/

namespace DocAt

variable {d : Doc} {v : Bytes}

theorem tagged {t : Nat} (h : DocAt o cc inp (.tag t d) s u) : DocAt o cc inp d s u := by
  obtain ⟨hdepth, v, hv, hpass, hcut⟩ := h
  cases hv with
  | scalar hv _ => cases hv
  | tag hv => exact ⟨hdepth, v, hv, hpass, hcut⟩
  | container hd _ _ => cases hd

theorem bare (h : DocAt o cc inp d s u) : DocAt o cc inp d.bare s u := by
  induction d using Doc.bare.induct with
  | case1 n d ih => exact ih h.tagged
  | case2 d hd =>
    have hbare : d.bare = d := by
      cases d <;> first | rfl | exact absurd rfl (hd _ _)
    rw [hbare]
    exact h

theorem inside_of_scalar (hv : scalarText cc d = some v) : d.inside = none := by
  cases d <;> first | rfl | cases hv

/-- The literal of a scalar stands there. -/
theorem scalar (h : DocAt o cc inp d s u) (hv : scalarText cc d = some v) :
    Readable o s.depth d ∧ Passes inp (s.skipped inp) u v ∧ Uncut v (inp.drop u.pos) := by
  obtain ⟨-, v', hlays, hpass, hcut⟩ := h
  cases hlays with
  | scalar hv' hd =>
    rw [hv] at hv'
    cases hv'
    exact ⟨hd, hpass, hcut⟩
  | tag _ => cases hv
  | container hd _ _ =>
    rw [inside_of_scalar hv] at hd
    cases hd

/-- The brackets of a container stand there. -/
theorem container {b : Bool} {ms : List (Option DocKey × Doc)}
    (h : DocAt o cc inp d s u) (hd : d.inside = some (b, ms)) :
    s.depth < o.maxDepth ∧ ∃ x, Lays o cc (.opened b) (s.depth + 1) x ms ∧
      Passes inp (s.skipped inp) u (openByte b :: x) := by
  obtain ⟨-, v, hlays, hpass, -⟩ := h
  cases hlays with
  | scalar hv _ =>
    rw [inside_of_scalar hv] at hd
    cases hd
  | tag _ => cases hd
  | container hd' hroom hx =>
    rw [hd] at hd'
    cases hd'
    exact ⟨hroom, _, hx, hpass⟩

end DocAt

theorem at?_passes {c : UInt8} {bs : Bytes} (h : Passes inp s u (c :: bs)) : at? inp s.pos =
    some c := at?_eq h.bytes

theorem expectNull_at {d : Doc} (h : DocAt o cc inp d s u) (hnull : d.bare = .null) :
    ∃ t, expectNull inp s = .ok () t ∧ Beside inp t u := by
  have hbare := h.bare
  rw [hnull] at hbare
  obtain ⟨-, hpass, -⟩ := hbare.scalar (v := str "null") rfl
  have hat : at? inp (s.skipped inp).pos = some 0x6E := at?_passes hpass
  refine ⟨_, ?_, hpass.arrives⟩
  rw [expectNull, Run.bind_of_ok (skipWs_run s), Run.bind_of_ok (mismatch_at hat)]
  exact literal_at hpass.bytes

theorem expectBoolean_at {x : Bool} (h : DocAt o cc inp (.boolean x) s u) :
    ∃ t, expectBoolean inp s = .ok x t ∧ Beside inp t u := by
  obtain ⟨-, hpass, -⟩ := h.scalar rfl
  refine ⟨_, ?_, hpass.arrives⟩
  have hlit := literal_at hpass.bytes
  rw [expectBoolean, Run.bind_of_ok (skipWs_run s), Run.bind_of_ok (Run.get_apply _)]
  cases x with
  | true =>
    have hat : at? inp (s.skipped inp).pos = some 0x74 := at?_passes hpass
    rw [if_pos hat]
    exact Run.bind_of_ok hlit _
  | false =>
    have hat : at? inp (s.skipped inp).pos = some 0x66 := at?_passes hpass
    rw [if_neg (by rw [hat]; decide), if_pos hat]
    exact Run.bind_of_ok hlit _

/-- An integer stands there bare or in quotes, as its annotation has it. -/
theorem stands_integer
    {f : FieldMeta} {i : Int} (hpass : Passes inp (s.skipped inp) u (quotedIf f (decimalInt i)))
    (hcut : Uncut (quotedIf f (decimalInt i)) (inp.drop u.pos)) :
    ∃ form : Form, form.Stands f (intLiteral i) inp s ∧
      form.length (intLiteral i) = (quotedIf f (decimalInt i)).length := by
  unfold quotedIf at hpass hcut ⊢
  cases hquotes : f.asString with
  | true =>
    rw [hquotes, if_pos rfl] at hpass
    refine ⟨.quoted, ⟨hquotes, inp.drop u.pos, ?_⟩, ?_⟩
    · rw [hpass.bytes, bytes_intLiteral]
      simp [quoted]
    · rw [Form.length, bytes_intLiteral]
      simp [quoted]
  | false =>
    rw [hquotes, if_neg Bool.false_ne_true] at hpass hcut
    refine ⟨.bare, ⟨inp.drop u.pos, ?_, ?_⟩, ?_⟩
    · rw [hpass.bytes, bytes_intLiteral]
    · exact hcut _ (bytes_intLiteral i).symm
    · rw [Form.length, bytes_intLiteral]
      rfl

theorem expectUint_doc {f : FieldMeta} {n : Nat} (h : DocAt o cc inp (.uint f n) s u) :
    ∃ t, expectUint o cc inp f s = .ok n t ∧ Beside inp t u := by
  obtain ⟨hn, hpass, hcut⟩ := h.scalar rfl
  rw [← decimalInt_nat] at hpass hcut
  obtain ⟨form, hstands, hlength⟩ := stands_integer hpass hcut
  have hlt : n < 2 ^ 64 := hn
  have hdigits : digitsValue (intLiteral n).int = n := digitsValue_decimal n
  have hminus : (intLiteral n).minus = [] := by
    show (if (n : Int) < 0 then [0x2D] else []) = []
    exact if_neg (Int.not_lt.2 (Int.natCast_nonneg n))
  have hrun := expectUint_at o cc (whole_intLiteral n) hstands
  rw [hdigits, if_pos ⟨hminus, hlt⟩, hlength] at hrun
  exact ⟨_, hrun, hpass.arrives⟩

theorem expectSint_doc {f : FieldMeta} {i : Int} (h : DocAt o cc inp (.sint f i) s u) :
    ∃ t, expectSint o cc inp f s = .ok i t ∧ Beside inp t u := by
  obtain ⟨hi, hpass, hcut⟩ := h.scalar rfl
  have hrange : -2 ^ 63 ≤ i ∧ i < 2 ^ 63 := hi
  obtain ⟨form, hstands, hlength⟩ := stands_integer hpass hcut
  have hrun := expectSint_at o cc (whole_intLiteral i) hstands
  rw [intValue_intLiteral, if_pos hrange, hlength] at hrun
  exact ⟨_, hrun, hpass.arrives⟩

/-- A double that is printed as an integer is read as one. -/
theorem doubleOfInt_intValue
    {n : Number} (hwhole : n.Whole) (hne : ¬ (n.minus ≠ [] ∧ digitsValue n.int = 0)) :
    doubleOfInt n.intValue = n.rounded := by
  obtain ⟨hnum, hden⟩ := Number.ratio_whole hwhole
  rw [doubleOfInt, Number.rounded, hnum, hden, Number.intValue]
  by_cases hminus : n.minus = []
  · have hneg : decide ((digitsValue n.int : Int) < 0) = decide (n.minus ≠ []) := decide_eq_decide.2
      (iff_of_false (Int.not_lt.2 (Int.natCast_nonneg _)) (not_not.2 hminus))
    rw [if_pos hminus, Int.natAbs_natCast, hneg]
  · have hpos : digitsValue n.int ≠ 0 := fun h => hne ⟨hminus, h⟩
    have hneg : decide (-(digitsValue n.int : Int) < 0) = decide (n.minus ≠ []) :=
      decide_eq_decide.2
      (iff_of_true (by omega) hminus)
    rw [if_neg hminus, Int.natAbs_neg, Int.natAbs_natCast, hneg]

/-- Minus zero keeps its sign. -/
theorem rounded_minus_zero
    {n : Number} (hwhole : n.Whole) (hminus : n.minus ≠ []) (hzero : digitsValue n.int = 0) :
    n.rounded = .zero doubleFormat true := by
  obtain ⟨hnum, hden⟩ := Number.ratio_whole hwhole
  rw [Number.rounded, hnum, hden, hzero, decide_eq_true hminus]
  refine Ieee.Binary.ofRatio_eq (x := .zero doubleFormat true) Nat.one_pos (Nat.zero_le _) ?_
  rw [Nat.zero_mul]
  exact (congrArg (· * 1) (Ieee.Format.units_of_subnormal (Nat.two_pow_pos _))).symm

theorem expectReal_number
    (hcc : cc.Correct) {n : Number} {x : Double} (hread : cc.fromChars n.bytes = some x)
    (hpass : Passes inp (s.skipped inp) u n.bytes) (hends : n.Ends (inp.drop u.pos)) :
    expectReal cc inp s = .ok x ((s.skipped inp).advance n.bytes.length) := by
  have hrounded : n.rounded = x := by
    have hchars := hcc n
    rw [hread] at hchars
    split at hchars
    · cases hchars
    · exact (Option.some.inj hchars).symm
  by_cases hinteger : n.Whole ∧ n.Fits64
  · obtain ⟨hwhole, hfits⟩ := hinteger
    rcases Number.fits64_iff.1 hfits with ⟨hminus, hv⟩ | ⟨hminus, hv⟩
    · have hscan := Number.scan_uint cc hwhole hminus hv
      have hdouble := doubleOfInt_intValue hwhole fun h => h.1 hminus
      have hvalue : n.intValue = digitsValue n.int := if_pos hminus
      rw [expectReal, Run.bind_of_ok (skipWs_run s),
        Run.bind_of_ok (number_ok hpass.bytes hends hscan Kind.noConfusion),
        ← hrounded, ← hdouble, hvalue]
      rfl
    · have hscan := Number.scan_sint cc hwhole hminus hv
      have hvalue : n.intValue = -(digitsValue n.int : Int) := if_neg hminus
      have hat : at? inp (s.skipped inp).pos = some 0x2D := by
        have hdash := n.minus_ok.resolve_left hminus
        have hbytes := hpass.bytes
        rw [Number.bytes, hdash] at hbytes
        exact at?_eq hbytes
      rw [expectReal, Run.bind_of_ok (skipWs_run s),
        Run.bind_of_ok (number_ok hpass.bytes hends hscan Kind.noConfusion),
        Run.bind_of_ok (Run.get_apply _), hat]
      by_cases hzero : digitsValue n.int = 0
      · rw [← hrounded, rounded_minus_zero hwhole hminus hzero, hzero]
        rfl
      · have hdouble := doubleOfInt_intValue hwhole fun h => hzero h.2
        have hneg : decide (Kind.sint = Kind.sint ∧ -(digitsValue n.int : Int) = 0 ∧
          some (0x2D : UInt8) = some 0x2D) = false :=
          decide_eq_false fun h => hzero (by omega)
        dsimp only
        rw [hneg, ← hrounded, ← hdouble, hvalue]
        rfl
  · obtain ⟨overflow, hscan⟩ := Number.scan_real cc hinteger
    have hreal : n.scan cc = { kind := .real, length := n.bytes.length, d := x, overflow } := by
      rw [hscan, Number.realScan, hread]
    rw [expectReal, Run.bind_of_ok (skipWs_run s),
      Run.bind_of_ok (number_ok hpass.bytes hends hreal Kind.noConfusion)]
    rfl

theorem expectReal_at (hcc : cc.Correct) (hprints : cc.Prints) {f : FieldMeta} {x : Double}
    (h : DocAt o cc inp (.real f x) s u) :
    ∃ t, expectReal cc inp s = .ok x t ∧ Beside inp t u := by
  obtain ⟨hx, hpass, hcut⟩ := h.scalar rfl
  obtain ⟨n, hprint, hread⟩ := hprints x hx
  rw [writeReal_finite hx, hprint] at hpass hcut
  exact ⟨_, expectReal_number hcc hread hpass (hcut n rfl), hpass.arrives⟩

/-! ### Strings -/

/-- A string that is written as it stands, up to its escapes. -/
theorem parseString_escaped
    {t : Bytes} (ht : o.validateUtf8 = true → Utf8.Valid t)
    (hpass : Passes inp s u (quoted (escaped t))) :
    ∃ r, parseString o inp s = .ok r (s.advance (quoted (escaped t)).length) ∧ r.text = t ∧
      r.borrowed = plainText t := by
  have hdrop : inp.drop s.pos = 0x22 :: (escaped t ++ 0x22 :: inp.drop u.pos) := by
    rw [hpass.bytes]
    simp [quoted]
  have hparse := parseString_spells (spells_escaped t) (fun h => valid_escaped (ht h)) hdrop
  have hlength : (quoted (escaped t)).length = (escaped t).length + 2 := by simp [quoted]
  rw [hlength]
  exact ⟨_, hparse, rfl, borrowed_escaped t⟩

theorem expectText_at {f : FieldMeta} {t : Bytes} (h : DocAt o cc inp (.text f t) s u) :
    ∃ r w, expectText o inp s = .ok r w ∧ Beside inp w u ∧ r.text = t ∧
      r.borrowed = plainText t := by
  obtain ⟨ht, hpass, -⟩ := h.scalar rfl
  obtain ⟨r, hparse, htext, hborrowed⟩ := parseString_escaped ht hpass
  have hat : at? inp (s.skipped inp).pos = some 0x22 := at?_passes hpass
  refine ⟨r, _, ?_, hpass.arrives, htext, hborrowed⟩
  rw [expectText, Run.bind_of_ok (skipWs_run s), Run.bind_of_ok (mismatch_at hat), hparse]

theorem decodeEncoding_encode (e : BytesEncoding) (b : Bytes) :
    decodeEncoding e (encodeBytes e b) = some b := by
  have hbase : ∀ url, base64Decode url (base64Encode url b) = some b := by
    intro url
    rw [base64Encode_eq]
    cases url with
    | false => exact base64DecodeInto_of_encodes (encodes_digits false b).2 []
    | true =>
      rw [if_pos rfl, List.append_nil]
      exact base64DecodeInto_of_encodes (encodes_digits true b).1 []
  cases e with
  | base64 => exact hbase false
  | base64url => exact hbase true
  | hex =>
    have hdecode := hexDecode_encode id (fun d hd => (hexValue_digit hd).1) b
    rw [List.map_id] at hdecode
    exact hdecode

theorem expectBytes_at {f : FieldMeta} {b : Bytes} (h : DocAt o cc inp (.bytes f b) s u) :
    ∃ r w, expectBytes o inp f s = .ok r w ∧ Beside inp w u ∧ r.bytes = b ∧ r.borrowed = false := by
  obtain ⟨-, hpass, -⟩ := h.scalar rfl
  have hat : at? inp (s.skipped inp).pos = some 0x22 := at?_passes hpass
  have hverbatim := verbatim_encodeBytes (f.bytes.getD .base64) b
  have hescaped : escaped (encodeBytes (f.bytes.getD .base64) b) =
    encodeBytes (f.bytes.getD .base64) b :=
    escaped_self fun c hc => (hverbatim c hc).1
  rw [← hescaped] at hpass
  obtain ⟨r, hparse, htext, -⟩ :=
    parseString_escaped (o := o) (fun _ => .of_ascii fun c hc => (hverbatim c hc).2) hpass
  refine ⟨⟨b, false⟩, _, ?_, hpass.arrives, rfl, rfl⟩
  rw [expectBytes, decodeBytes, Run.bind_of_ok (skipWs_run s), Run.bind_of_ok (Run.get_apply _),
    Run.bind_of_ok (mismatch_at hat),
    Run.bind_of_ok hparse, htext, decodeEncoding_encode]
  rfl

/-! ### Containers -/

/-- A member, and what follows it in its container. -/
structure MemberAt (o : Options) (cc : Charconv) (inp : Bytes) (b : Bool) (m : Option DocKey × Doc)
    (ms : List (Option DocKey × Doc))
    (s u : State) : Prop where
  depth : s.depth ≤ o.maxDepth
  lies : ∃ x y, Lays o cc (.member b) s.depth x [m] ∧ Lays o cc (.rest b) s.depth y ms ∧
    Passes inp s { u with depth := u.depth + 1 } (x ++ y)

section

variable {b : Bool} {c : Cursor} {m : Option DocKey × Doc} {ms : List (Option DocKey × Doc)}

theorem expectContainer_at
    (hcc : cc.Prints) {d : Doc} (h : DocAt o cc inp d s u) (hd : d.inside = some (b, ms))
    (expected : Bytes) :
    ∃ c t, expectContainer o inp expected (openByte b) s = .ok c t ∧
      MembersAt o cc inp b c ms t u := by
  obtain ⟨hroom, x, hx, hpass⟩ := h.container hd
  have hat : at? inp (s.skipped inp).pos = some (openByte b) := at?_passes hpass
  have henter : enter o inp (s.skipped inp) =
    .ok () { (s.skipped inp).advance 1 with depth := s.depth + 1 } := by
    rw [enter, if_neg (show ¬ o.maxDepth ≤ (s.skipped inp).depth from Nat.not_le.2 hroom)]
    rfl
  obtain ⟨-, hbytes, hpos, hdepth⟩ := Passes.push (a := [openByte b]) hpass
  have hinside : Passes inp { (s.skipped inp).advance 1 with depth := s.depth + 1 }
    { u with depth := u.depth + 1 } x :=
    ⟨hbytes, hpos, congrArg (· + 1) hdepth⟩
  obtain ⟨y, hy, -, hpass'⟩ := hx.ahead hcc hinside
  refine ⟨{}, { (s.skipped inp).advance 1 with depth := s.depth + 1 }, ?_, hroom, y, hy, hpass'⟩
  rw [expectContainer, Run.bind_of_ok (skipWs_run s), Run.bind_of_ok (mismatch_at hat),
    Run.bind_of_ok henter]
  rfl

/-- The cursor stops behind the bracket. -/
theorem next_closes (h : MembersAt o cc inp b c [] s u) :
    ∃ c' t, Cursor.next inp (brackets b) c s = .ok (false, c') t ∧ Beside inp t u := by
  obtain ⟨-, y, hy, hpass⟩ := h
  obtain ⟨ws, rfl, hws⟩ : ∃ ws, y = ws ++ [closeByte b] ∧ Blank ws := by
    cases hfirst : c.first with
    | true =>
      rw [hfirst] at hy
      cases hy with
      | empty hws => exact ⟨_, rfl, hws⟩
    | false =>
      rw [hfirst] at hy
      cases hy with
      | close hws => exact ⟨_, rfl, hws⟩
  have hdrop : inp.drop (s.skipped inp).pos = ws ++ closeByte b :: inp.drop u.pos := by
    rw [hpass.bytes, List.append_assoc]
    rfl
  have hrun := next_close (c := c) hws hdrop
  have hskips : SkipsBlanks inp (Cursor.next inp (brackets b) c) := .blanks _
  rw [hskips s] at hrun
  refine ⟨c, _, hrun, beside_of_pos ?_ ?_⟩
  · have hpos : u.pos = (s.skipped inp).pos + (ws ++ [closeByte b]).length := hpass.pos
    rw [hpos, List.length_append]
    rfl
  · have hdepth : u.depth + 1 = s.depth := hpass.depth
    show s.depth - 1 = u.depth
    omega

/-- The cursor gives up the next member. -/
theorem next_member (hcc : cc.Prints) (h : MembersAt o cc inp b c (m :: ms) s u) :
    ∃ t, Cursor.next inp (brackets b) c s = .ok (true, { first := false }) t ∧
      MemberAt o cc inp b m ms t u := by
  have hskips : SkipsBlanks inp (Cursor.next inp (brackets b) c) := .blanks _
  obtain ⟨hroom, y, hy, hpass⟩ := h
  obtain ⟨first⟩ := c
  cases first with
  | true =>
    cases hy with
    | @first _ _ x y _ _ hx hy =>
      obtain ⟨ws, tail, rfl, hws, htail, hhead⟩ := hx.split hcc
      rw [List.append_assoc] at hpass
      have hbegins : Begins (tail ++ (y ++ inp.drop u.pos)) := Begins.append hhead _
      have hdrop : inp.drop (s.skipped inp).pos = ws ++ (tail ++ (y ++ inp.drop u.pos)) := by
        rw [hpass.bytes, List.append_assoc, List.append_assoc]
      have hrun := next_first (b := b) hws hbegins hdrop
      rw [hskips s, State.skipped_skipped] at hrun
      have hmember := hpass.skip hws ((Begins.append hhead y).exists_cons)
      rw [State.skipped_skipped] at hmember
      exact ⟨_, hrun, hroom, tail, y, htail, hy, hmember⟩
  | false =>
    cases hy with
    | @comma _ _ ws x y _ _ hws hx hy =>
      obtain ⟨ws', tail, rfl, hws', htail, hhead⟩ := hx.split hcc
      have hpass : Passes inp (s.skipped inp) { u with depth := u.depth + 1 }
        ((ws ++ [0x2C]) ++ (ws' ++ (tail ++ y))) := by
        simpa using hpass
      obtain ⟨-, hrest⟩ := hpass.push
      have hbegins : Begins (tail ++ (y ++ inp.drop u.pos)) := Begins.append hhead _
      have hdrop : inp.drop (s.skipped inp).pos =
        ws ++ 0x2C :: (ws' ++ (tail ++ (y ++ inp.drop u.pos))) := by
        rw [hpass.bytes]
        simp
      have hrun := next_comma (b := b) hws hws' hbegins hdrop
      rw [hskips s] at hrun
      have hmember := hrest.skip hws' ((Begins.append hhead y).exists_cons)
      rw [List.length_append] at hmember
      exact ⟨_, hrun, hroom, tail, y, htail, hy, hmember⟩

/-- Behind a value, the rest of its container. -/
theorem rest_at (hcc : cc.Prints) {v y : Bytes} {d : Doc} (hroom : s.depth ≤ o.maxDepth)
    (hv : Layout o cc s.depth d v) (hy : Lays o cc (.rest b) s.depth y ms)
    (hpass : Passes inp s { u with depth := u.depth + 1 } (v ++ y)) :
    DocAt o cc inp d s (s.advance v.length) ∧
      MembersAt o cc inp b { first := false } ms (s.advance v.length) u := by
  obtain ⟨hvalue, hrest⟩ := hpass.push
  have hskip : s.skipped inp = s := by
    obtain ⟨x, hx⟩ := layout_value hcc hv
    exact hx.begins.append _ |>.skipped_self hvalue.bytes
  refine ⟨⟨hroom, v, hv, by rw [hskip]; exact hvalue, ?_⟩, hroom, ?_⟩
  · obtain ⟨ms, hms⟩ := hy.text hcc
    rw [hrest.bytes]
    exact (hms.delimits _).uncut v
  · obtain ⟨y', hy', -, hpass'⟩ := hy.ahead hcc hrest
    exact ⟨y', hy', hpass'⟩

theorem MemberAt.element
    (hcc : cc.Prints) {d : Doc} (h : MemberAt o cc inp false (none, d) ms s u) :
    ∃ t', DocAt o cc inp d s t' ∧ MembersAt o cc inp false { first := false } ms t' u := by
  obtain ⟨hroom, x, y, hx, hy, hpass⟩ := h
  cases hx with
  | @element _ ws v _ hws hv =>
    rw [List.append_assoc] at hpass
    obtain ⟨z, hz⟩ := layout_value hcc hv
    have hvalue := hpass.skip hws ((hz.begins.append y).exists_cons)
    obtain ⟨hdoc, hrest⟩ := rest_at (s := s.skipped inp) hcc hroom hv hy hvalue
    exact ⟨_, hdoc.beside (beside_skipped inp _), hrest⟩

theorem MemberAt.entry (hcc : cc.Prints) {k : DocKey} {d : Doc}
    (h : MemberAt o cc inp true (some k, d) ms s u) :
    ∃ t t', KeyAt o inp k s t ∧ DocAt o cc inp d t t' ∧
      MembersAt o cc inp true { first := false } ms t' u := by
  obtain ⟨hroom, x, y, hx, hy, hpass⟩ := h
  cases hx with
  | @entry _ ws ws' ws'' v _ _ hws hk hws' hws'' hv =>
    have hpass : Passes inp s { u with depth := u.depth + 1 }
        (ws ++ ((quoted (escaped (writtenKey k)) ++ (ws' ++ [0x3A])) ++ (ws'' ++ (v ++ y)))) := by
      simpa using hpass
    have hquote : Begins (quoted (escaped (writtenKey k)) ++ (ws' ++ [0x3A])) :=
      (quoted_escaped (valid_writtenKey hk)).begins.append _
    have hkey := hpass.skip hws ((hquote.append (ws'' ++ (v ++ y))).exists_cons)
    obtain ⟨hkey, hrest⟩ := hkey.push
    obtain ⟨z, hz⟩ := layout_value hcc hv
    have hvalue := hrest.skip hws'' ((hz.begins.append y).exists_cons)
    obtain ⟨hdoc, hrest⟩ :=
      rest_at (s := State.skipped inp (State.advance (s.skipped inp) _)) hcc hroom hv hy hvalue
    exact ⟨_, _, ⟨hk, ws', hws', hkey⟩, hdoc.beside (beside_skipped inp _), hrest⟩

end

theorem keyText_doc {k : DocKey} (h : KeyAt o inp k s u) :
    ∃ r t, keyText o inp s = .ok r t ∧ Beside inp t u ∧ r.text = writtenKey k ∧
      r.borrowed = plainText (writtenKey k) := by
  obtain ⟨hk, ws, hws, hpass⟩ := h
  have harrives := hpass.arrives
  obtain ⟨hkey, hcolon⟩ := hpass.push
  obtain ⟨r, hparse, htext, hborrowed⟩ := parseString_escaped (valid_writtenKey hk) hkey
  have hat : at? inp (s.skipped inp).pos = some 0x22 := at?_passes hkey
  have hdrop : inp.drop ((s.skipped inp).advance (quoted (escaped (writtenKey k))).length).pos =
    ws ++ 0x3A :: inp.drop u.pos := by
    rw [hcolon.bytes, List.append_assoc]
    rfl
  refine ⟨r, _, ?_, harrives, htext, hborrowed⟩
  rw [keyText, Run.bind_of_ok (skipWs_run s), Run.bind_of_ok (Run.get_apply _), hat]
  dsimp only
  rw [if_neg (not_not.2 rfl), Run.bind_of_ok hparse, Run.bind_of_ok (passColon_at hws hdrop),
    State.advance_advance,
    List.length_append, List.length_append]
  rfl

/-! ### Looking ahead -/

theorem scanNumber_kind_ne (cc : Charconv) (bs : Bytes) : (scanNumber cc bs).kind ≠ .null := by
  unfold scanNumber
  cases scanParts bs with
  | none => exact Kind.noConfusion
  | some p =>
    simp only [classify, realScan]
    repeat' split
    all_goals exact Kind.noConfusion

theorem peek_byte {c : UInt8} (hat : at? inp (s.skipped inp).pos = some c) :
    ∃ k, peek cc inp s = .ok k (s.skipped inp) ∧ (k = .null ↔ c = 0x6E) := by
  by_cases hnumber : c = 0x2D ∨ isDigit c = true
  · have hne : c ≠ 0x6E := by
      rintro rfl
      exact absurd hnumber (by decide)
    have hother : ∀ x : UInt8, ¬ (x = 0x2D ∨ isDigit x = true) → c ≠ x := by
      rintro x hx rfl
      exact hx hnumber
    have hkind := scanNumber_kind_ne cc (inp.drop (s.skipped inp).pos)
    let kind := (scanNumber cc (inp.drop (s.skipped inp).pos)).kind
    refine ⟨if kind = .undefined then .real else kind, ?_, iff_of_false (fun h => ?_) hne⟩
    · rw [peek, Run.bind_of_ok (skipWs_run s), Run.bind_of_ok (Run.get_apply _), hat]
      simp only [if_pos hnumber, if_neg hne, hother 0x74 (by decide), hother 0x66 (by decide),
        hother 0x22 (by decide),
        hother 0x5B (by decide), hother 0x7B (by decide), or_self, if_false]
      rfl
    · split at h
      · cases h
      · exact hkind h
  · refine ⟨_, peek_at hat hnumber, ?_⟩
    unfold kindOf
    split_ifs <;> simp_all

/-- Only a null begins with its letter. -/
theorem head_of_not_null {d : Doc} {n : Nat} {v : Bytes} (hprints : cc.Prints)
    (h : Layout o cc n d v) (hplain : d.Plain) (hnull : d ≠ .null) : v.head? ≠ some 0x6E := by
  have hinteger : ∀ (f : FieldMeta) (i : Int), (quotedIf f (decimalInt i)).head? ≠ some 0x6E := by
    intro f i
    unfold quotedIf
    split
    · exact fun h => absurd (Option.some.inj h) (by decide)
    · obtain ⟨c, cs, hcons, hc⟩ := (intLiteral i).exists_cons
      rw [bytes_intLiteral] at hcons
      rw [hcons]
      rintro h
      cases h
      exact absurd hc (by decide)
  cases h with
  | scalar hv hd =>
    cases d with
    | null => exact absurd rfl hnull
    | boolean b =>
      cases hv
      cases b <;> exact fun h => absurd (Option.some.inj h) (by decide)
    | uint f k =>
      cases hv
      rw [← decimalInt_nat]
      exact hinteger f k
    | sint f i =>
      cases hv
      exact hinteger f i
    | real f x =>
      cases hv
      obtain ⟨m, hprint, -⟩ := hprints x hd
      rw [writeReal_finite hd, hprint]
      obtain ⟨c, cs, hcons, hc⟩ := m.exists_cons
      rw [hcons]
      rintro h
      cases h
      exact absurd hc (by decide)
    | text f t | bytes f t =>
      cases hv
      exact fun h => absurd (Option.some.inj h) (by decide)
    | _ => cases hv
  | tag _ => exact hplain.elim
  | @container _ _ b _ _ _ _ _ => cases b <;> exact fun h => absurd (Option.some.inj h) (by decide)

theorem bare_plain {d : Doc} (h : DocAt o cc inp d s u) : d.bare.Plain := by
  have hbare := h.bare
  have htag : ∀ n e, d.bare ≠ .tag n e := by
    intro n e
    induction d using Doc.bare.induct with
    | case1 m d ih => exact ih h.tagged hbare
    | case2 d hd =>
      have heq : d.bare = d := by
        cases d <;> first | rfl | exact absurd rfl (hd _ _)
      rw [heq]
      exact hd n e
  obtain ⟨-, v, hv, -⟩ := hbare
  generalize d.bare = e at htag hv
  cases e with
  | tag n e => exact absurd rfl (htag n e)
  | range t v =>
    cases hv with
    | scalar hv _ => cases hv
    | container hd _ _ => cases hd
  | _ => exact trivial

theorem peek_doc (hprints : cc.Prints) {d : Doc} (h : DocAt o cc inp d s u) :
    ∃ k, peek cc inp s = .ok k (s.skipped inp) ∧ (k = .null ↔ d.bare = .null) := by
  have hplain := bare_plain h
  obtain ⟨-, v, hv, hpass, -⟩ := h.bare
  obtain ⟨x, hx⟩ := layout_value hprints hv
  obtain ⟨c, cs, rfl, -⟩ := hx.begins
  obtain ⟨k, hpeek, hk⟩ := @peek_byte cc inp s c (at?_passes hpass)
  refine ⟨k, hpeek, hk.trans ⟨fun hc => ?_, fun hnull => ?_⟩⟩
  · by_contra hnull
    exact head_of_not_null hprints hv hplain hnull (congrArg some hc)
  · rw [hnull] at hv
    cases hv with
    | scalar hv _ =>
      cases hv
      rfl
    | container hd _ _ => cases hd

theorem skipValue_doc (hprints : cc.Prints) {d : Doc} (h : DocAt o cc inp d s u) :
    ∃ t, skipValue o cc inp s = .ok () t ∧ Beside inp t u := by
  obtain ⟨-, v, hv, hpass, hcut⟩ := h
  obtain ⟨x, hx⟩ := layout_value hprints hv
  obtain ⟨ws, hws, hskip⟩ := passes_skipped inp s
  have hall := hskip.trans hpass
  have hdrop : inp.drop s.pos = ws ++ (v ++ inp.drop u.pos) := by
    rw [hall.bytes, List.append_assoc]
  exact ⟨_, skipValue_at hdrop hws hx hcut, hall.arrives⟩

/-! ### The laws -/

theorem isBytes_types {f : FieldMeta} {t : Ty} (h : isBytes f t = true) :
    (∃ rg, t = .byteRange rg) ∨ contiguousOfUint8 t = true := by
  by_cases hrange : ∃ rg, t = .byteRange rg
  · exact .inl hrange
  · have heq : isBytes f t = (contiguousOfUint8 t && f.bytes.isSome) := by
      cases t <;> first | rfl | exact absurd ⟨_, rfl⟩ hrange
    rw [heq, Bool.and_eq_true_iff] at h
    exact .inr h.1

/-- A key is text. -/
theorem KeyAt.shown {k : DocKey} (h : KeyAt o inp k s u) : shownKey k = .text (writtenKey k) := by
  cases k with
  | intName i => exact h.readable.elim
  | _ => rfl

theorem KeyAt.not_int {k : DocKey} {i : Int} (h : KeyAt o inp k s u) (hk : shownKey k = .int i) :
    False := by
  rw [h.shown] at hk
  cases hk

/-- The reader finds the parts of a document in every layout of it. -/
def docLaws (env : Env) (ha : Addressable o inp) (herrors : o.errors = .failFast) (hcc : cc.Correct)
    (hprints : cc.Prints) :
    DocLaws env format (reader o cc inp) where
  Same := Beside inp
  At := DocAt o cc inp
  InSeq c ds := MembersAt o cc inp false c (ds.map fun d => (none, d))
  InMap c es := MembersAt o cc inp true c (es.map fun e => (some e.1, e.2))
  AtKey := KeyAt o inp
  traits := rfl
  errors := herrors
  isBytes := isBytes_types
  same_refl := Beside.refl inp
  same_trans := Beside.trans
  at_same h hat := hat.beside h
  inSeq_same h hat := hat.beside h
  inMap_same h hat := hat.beside h
  atKey_same h hat := hat.beside h
  offset s := ⟨_, s.skipped inp, rfl, (beside_skipped inp s).symm⟩
  peek {d s u} h := by
    obtain ⟨k, hpeek, hk⟩ := peek_doc hprints h
    exact ⟨k, s.skipped inp, hpeek, (beside_skipped inp s).symm, hk⟩
  peek_sint h := Bool.noConfusion h
  peek_real h := Bool.noConfusion h
  null := expectNull_at
  boolean := expectBoolean_at
  uint := expectUint_doc
  sint := expectSint_doc
  real {f x s u y} h hy := by
    have hfinite : Finite x := (h.scalar rfl).1
    have hy : (if Finite x then some x else none) = some y := hy
    rw [if_pos hfinite] at hy
    cases hy
    exact expectReal_at hcc hprints h
  real_none {f x s u} h hnone := by
    have hfinite : Finite x := (h.scalar rfl).1
    have hnone : (if Finite x then some x else none) = none := hnone
    rw [if_pos hfinite] at hnone
    cases hnone
  text := expectText_at
  bytes := expectBytes_at
  tags_nil _ := rfl
  tags_cons h := ⟨_, h.tagged, fun _ => rfl⟩
  tags_none _ _ hne := absurd rfl hne
  range _ hbulk := Bool.noConfusion hbulk
  no_range _ _ _ _ := ⟨_, rfl, Beside.refl inp _⟩
  array h := expectContainer_at (b := false) hprints h rfl (str "array")
  next_more h := by
    obtain ⟨t, hnext, hmember⟩ := next_member hprints h
    obtain ⟨t', hdoc, hrest⟩ := hmember.element hprints
    exact ⟨_, t, t', hnext, hdoc, hrest⟩
  next_done h := next_closes h
  arrange_perm _ := .refl _
  arrange_keys _ _ := rfl
  map {f n es s u} h := by
    obtain ⟨c, t, hrun, hmembers⟩ := expectContainer_at (b := true) hprints h rfl (str "object")
    exact ⟨c, t, hrun, hmembers⟩
  members {n es s u} h := by
    obtain ⟨c, t, hrun, hmembers⟩ := expectContainer_at (b := true) hprints h rfl (str "object")
    exact ⟨c, t, hrun, hmembers⟩
  key_more h := by
    obtain ⟨t, hnext, hmember⟩ := next_member hprints h
    obtain ⟨t', t'', hkey, hdoc, hrest⟩ := hmember.entry hprints
    exact ⟨_, t, t', t'', hnext, hkey, hdoc, hrest⟩
  key_done h := next_closes h
  key_kind _ _ := ⟨_, rfl, Beside.refl inp _⟩
  key_text {k s u x} h hk := by
    have hk : shownKey k = .text x := hk
    rw [h.shown] at hk
    cases hk
    exact keyText_doc h
  key_uint h hk := (h.not_int hk).elim
  key_sint h hk := (h.not_int hk).elim
  key_int h hk := (h.not_int hk).elim
  shown_text _ := rfl
  shown_name _ := rfl
  shown_intName _ := rfl
  shown_uint _ := .inr rfl
  shown_sint _ := .inr rfl
  order_perm _ := .refl _
  skip h := skipValue_doc hprints h
  restore {d s u} h t := by
    obtain ⟨hdepth, v, hv, hpass, -⟩ := h
    obtain ⟨x, hx⟩ := layout_value hprints hv
    obtain ⟨c, cs, rfl, -⟩ := hx.begins
    have hlt := at?_lt (at?_passes hpass)
    rw [State.skipped_pos] at hlt
    have hlength := ha.length
    have hroom := ha.depth
    have hsame : Json.Same inp s (t.restore s.save) := restore_save (by omega) (by omega) t
    exact beside_of_pos hsame.pos hsame.depth

end VCodec.Json
