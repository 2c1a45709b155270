import VCodec.Json.Print

/-!
# Layouts of a document

The texts that a document may have: the literals are those of the writer, and the blanks between the
tokens are free. What the writer makes of a document is one of its layouts, and every layout is a
value of the grammar.
-/

namespace VCodec

/-- The members of a container, and whether it is an object. An element of an array has no key. -/
def Doc.inside : Doc → Option (Bool × List (Option DocKey × Doc))
  | .array _ _ ds => some (false, ds.map fun d => (none, d))
  | .map _ _ es | .members _ es => some (true, es.map fun e => (some e.1, e.2))
  | _ => none

namespace Json

/-! ### What the reader refuses -/

section

variable (o : Options)

/-- The reader takes the document, if it takes its parts. A double that is not finite has become a
null. -/
def Readable (n : Nat) : Doc → Prop
  | .uint _ k => k < 2 ^ 64
  | .sint _ i => -2 ^ 63 ≤ i ∧ i < 2 ^ 63
  | .real _ x => Finite x
  | .text _ t => o.validateUtf8 = true → Utf8.Valid t
  | .range _ _ => False
  | .array _ _ _ | .map _ _ _ | .members _ _ => n < o.maxDepth
  | _ => True

def ReadableKey : DocKey → Prop
  | .text k | .name k => o.validateUtf8 = true → Utf8.Valid k
  | .intName _ => False
  | _ => True

abbrev Legible : Nat → Doc → Prop := Doc.Every (Readable o) (ReadableKey o)

end

/-! ### Layouts -/

/-- A value, a member of a container, what a container has behind its bracket, and what it has
behind a member. -/
inductive Piece
  | value
  | member (isObject : Bool)
  | opened (isObject : Bool)
  | rest (isObject : Bool)

/-- The text is a layout of the documents, inside so many containers. Blanks stand in front of a
member, a comma and a bracket. -/
inductive Lays (o : Options) (cc : Charconv) :
    Piece → Nat → Bytes → List (Option DocKey × Doc) → Prop
  | scalar {n : Nat} {d : Doc} {v : Bytes} (hv : scalarText cc d = some v) (hd : Readable o n d) :
      Lays o cc .value n v [(none, d)]
  | tag {n t : Nat} {d : Doc} {v : Bytes} (h : Lays o cc .value n v [(none, d)]) :
      Lays o cc .value n v [(none, .tag t d)]
  | container {n : Nat} {d : Doc} {b : Bool} {ms : List (Option DocKey × Doc)} {x : Bytes}
      (hd : d.inside = some (b, ms))
    (hroom : n < o.maxDepth) (h : Lays o cc (.opened b) (n + 1) x ms) :
      Lays o cc .value n (openByte b :: x) [(none, d)]
  | element {n : Nat} {ws v : Bytes} {d : Doc} (hws : Blank ws)
      (h : Lays o cc .value n v [(none, d)]) :
    Lays o cc (.member false) n (ws ++ v) [(none, d)]
  | entry {n : Nat} {ws ws' ws'' v : Bytes} {k : DocKey} {d : Doc} (hws : Blank ws)
      (hk : ReadableKey o k) (hws' : Blank ws')
    (hws'' : Blank ws'') (h : Lays o cc .value n v [(none, d)]) :
    Lays o cc (.member true) n
      (ws ++ (quoted (escaped (writtenKey k)) ++ (ws' ++ 0x3A :: (ws'' ++ v)))) [(some k, d)]
  | empty {n : Nat} {b : Bool} {ws : Bytes} (hws : Blank ws) :
      Lays o cc (.opened b) n (ws ++ [closeByte b]) []
  | first {n : Nat} {b : Bool} {x y : Bytes} {m : Option DocKey × Doc}
      {ms : List (Option DocKey × Doc)}
    (hx : Lays o cc (.member b) n x [m]) (hy : Lays o cc (.rest b) n y ms) :
      Lays o cc (.opened b) n (x ++ y) (m :: ms)
  | close {n : Nat} {b : Bool} {ws : Bytes} (hws : Blank ws) :
      Lays o cc (.rest b) n (ws ++ [closeByte b]) []
  | comma {n : Nat} {b : Bool} {ws x y : Bytes} {m : Option DocKey × Doc}
      {ms : List (Option DocKey × Doc)} (hws : Blank ws)
    (hx : Lays o cc (.member b) n x [m]) (hy : Lays o cc (.rest b) n y ms) :
      Lays o cc (.rest b) n (ws ++ 0x2C :: (x ++ y)) (m :: ms)

/-- A layout of one document. -/
abbrev Layout (o : Options) (cc : Charconv) (n : Nat) (d : Doc) (v : Bytes) : Prop :=
  Lays o cc .value n v [(none, d)]

variable {o p : Options} {cc : Charconv} {n : Nat}

/-! ### The layouts of the writer -/

section

variable {b : Bool}

/-- A member, wherever it is put. -/
def Places (o : Options) (cc : Charconv) (b : Bool) (n : Nat) (x : Bytes)
    (m : Option DocKey × Doc) : Prop :=
  ∀ ws, Blank ws → Lays o cc (.member b) n (ws ++ x) [m]

theorem lays_rest {m : Nat} {xs : List Bytes} {ms : List (Option DocKey × Doc)}
    {ws : Bytes} (h : List.Forall₂ (Places o cc b n) xs ms) (hws : Blank ws) :
    Lays o cc (.rest b) n (lines p m false xs ++ (ws ++ [closeByte b])) ms := by
  induction h with
  | nil => exact .close hws
  | @cons x m' xs ms hx _ ih =>
    have hcomma := Lays.comma blank_nil (hx _ (blank_lineBreak (o := p) m)) ih
    simpa [lines] using hcomma

theorem lays_enclosed {xs : List Bytes} {d : Doc} {ms : List (Option DocKey × Doc)}
    (hd : d.inside = some (b, ms))
    (hroom : n < o.maxDepth) (h : List.Forall₂ (Places o cc b (n + 1)) xs ms) :
    Layout o cc n d (enclosed p b n xs) := by
  refine .container hd hroom ?_
  cases h with
  | nil => exact .empty blank_nil
  | @cons x m xs ms hx hxs =>
    have hfirst :=
      Lays.first (hx _ (blank_lineBreak (o := p) (n + 1)))
      (lays_rest (p := p) (m := n + 1) hxs (blank_lineBreak (o := p) n))
    simpa [lines] using hfirst

theorem places_element {d : Doc} {v : Bytes} (h : Layout o cc n d v) :
    Places o cc false n v (none, d) :=
  fun _ hws => .element hws h

theorem places_entry {k : DocKey} {d : Doc} {v : Bytes} (hk : ReadableKey o k)
    (h : Layout o cc n d v) :
    Places o cc true n (quoted (escaped (writtenKey k)) ++ colon p ++ v) (some k, d) := by
  intro ws hws
  have hcolon : ∃ ws', colon p = 0x3A :: ws' ∧ Blank ws' := by
    unfold colon
    split
    · refine ⟨[0x20], rfl, fun c hc => ?_⟩
      rw [List.mem_singleton.1 hc]
      rfl
    · exact ⟨[], rfl, blank_nil⟩
  obtain ⟨ws', hcolon, hws'⟩ := hcolon
  have hentry := Lays.entry hws hk blank_nil hws' h
  rw [hcolon, List.append_assoc]
  exact hentry

end

variable (o p cc) in
mutual

/-- What the writer makes of a document is a layout of it. -/
theorem print_lays (n : Nat) (d : Doc) (h : Legible o n d) : Layout o cc n d (print p cc n d) := by
  match d with
  | .null | .boolean b => exact .scalar rfl trivial
  | .uint f k | .sint f i | .real f x | .text f t => exact .scalar rfl h
  | .bytes f t => exact .scalar rfl trivial
  | .range t v => exact h.elim
  | .tag t d => exact .tag (print_lays n d h.2)
  | .array f c ds => exact lays_enclosed rfl h.1 (places_all (n + 1) ds h.2)
  | .map f c es => exact lays_enclosed rfl h.1 (places_entries (n + 1) es h.2)
  | .members c es => exact lays_enclosed rfl h.1 (places_entries (n + 1) es h.2)

theorem places_all (n : Nat) (ds : List Doc) (h : Doc.EveryAll (Readable o) (ReadableKey o) n ds) :
    List.Forall₂ (Places o cc false n) (printAll p cc n ds) (ds.map fun d => (none, d)) := by
  match ds with
  | [] => exact .nil
  | d :: ds => exact .cons (places_element (print_lays n d h.1)) (places_all n ds h.2)

theorem places_entries (n : Nat) (es : List (DocKey × Doc))
    (h : Doc.EveryEntry (Readable o) (ReadableKey o) n es) :
    List.Forall₂ (Places o cc true n) (printEntries p cc n es)
      (es.map fun e => (some e.1, e.2)) := by
  match es with
  | [] => exact .nil
  | (k, d) :: es =>
    exact .cons (places_entry h.1 (print_lays n d h.2.1)) (places_entries n es h.2.2)

end

/-! ### Layouts are texts of the grammar -/

theorem quoted_escaped {t : Bytes} (ht : o.validateUtf8 = true → Utf8.Valid t) :
    Quoted o (quoted (escaped t)) t := by
  have hdrop : (quoted (escaped t)).drop 0 = 0x22 :: (escaped t ++ 0x22 :: []) := rfl
  have hparse := @parseString_spells o (quoted (escaped t)) {} _ _ [] (spells_escaped t)
    (fun h => valid_escaped (ht h)) hdrop
  obtain ⟨k, hk, hpass⟩ := passes_parseString (at?_eq hdrop) hparse
  have hend : (quoted (escaped t)).drop ((escaped t).length + 2) = [] :=
    List.drop_of_length_le (by simp [quoted])
  have hbytes : quoted (escaped t) = k ++ (quoted (escaped t)).drop
    (0 + ((escaped t).length + 2)) := hpass.bytes
  rw [Nat.zero_add, hend, List.append_nil] at hbytes
  exact hbytes ▸ hk

theorem valid_writtenKey {k : DocKey} (h : ReadableKey o k) :
    o.validateUtf8 = true → Utf8.Valid (writtenKey k) := by
  cases k with
  | text k | name k => exact h
  | uint k =>
    intro _
    rw [writtenKey, ← decimalInt_nat]
    exact valid_decimalInt k
  | sint i => exact fun _ => valid_decimalInt i
  | intName i => exact h.elim

theorem value_quotedIf {f : FieldMeta} {i : Int} (hlo : -2 ^ 63 ≤ i) (hhi : i < 2 ^ 64) :
    ∃ x, Value o cc n (quotedIf f (decimalInt i)) x := by
  unfold quotedIf
  split
  · exact ⟨_, value_verbatim (verbatim_decimalInt i)⟩
  · exact ⟨_, value_integer hlo hhi⟩

theorem scalar_value (hcc : cc.Prints) {d : Doc} {v : Bytes} (hv : scalarText cc d = some v)
    (hd : Readable o n d) :
    ∃ x, Value o cc n v x := by
  cases d with
  | null =>
    cases hv
    exact ⟨_, .word .null⟩
  | boolean b =>
    cases hv
    cases b with
    | false => exact ⟨_, .word .false⟩
    | true => exact ⟨_, .word .true⟩
  | uint f k =>
    cases hv
    have hk : k < 2 ^ 64 := hd
    rw [← decimalInt_nat]
    exact value_quotedIf (by omega) (by omega)
  | sint f i =>
    cases hv
    have hi : i < 2 ^ 63 := hd.2
    exact value_quotedIf hd.1 (by omega)
  | real f x =>
    cases hv
    obtain ⟨m, hprint, hread⟩ := hcc x hd
    rw [writeReal_finite hd, hprint]
    exact ⟨_, value_real hread⟩
  | text f t =>
    cases hv
    exact ⟨_, .text (quoted_escaped hd)⟩
  | bytes f t =>
    cases hv
    exact ⟨_, value_verbatim (verbatim_encodeBytes _ t)⟩
  | _ => cases hv

/-- A text of the grammar. What a container has behind its bracket is completed by the bracket. -/
def Piece.Text (o : Options) (cc : Charconv) : Piece → Nat → Bytes → Prop
  | .value, n, v => ∃ x, Value o cc n v x
  | .member b, n, x => ∃ m, Derives o cc (.member b) n x [m]
  | .rest b, n, y => ∃ ms, Derives o cc (.rest b) n y ms
  | .opened b, n, x =>
    ∀ e, n = e + 1 → e < o.maxDepth → ∃ ms, Value o cc e (openByte b :: x) (.container b ms)

theorem Lays.text (hcc : cc.Prints) {ph : Piece} {v : Bytes} {ms : List (Option DocKey × Doc)}
    (h : Lays o cc ph n v ms) :
    ph.Text o cc n v := by
  induction h with
  | scalar hv hd => exact scalar_value hcc hv hd
  | tag _ ih => exact ih
  | container _ hroom _ ih =>
    obtain ⟨ms, hms⟩ := ih _ rfl hroom
    exact ⟨_, hms⟩
  | element hws _ ih =>
    obtain ⟨x, hx⟩ := ih
    exact ⟨_, .element hws hx⟩
  | entry hws hk hws' hws'' _ ih =>
    obtain ⟨x, hx⟩ := ih
    exact ⟨_, .entry hws (quoted_escaped (valid_writtenKey hk)) hws' hws'' hx⟩
  | empty hws => exact fun e _ hroom => ⟨_, .empty hws hroom⟩
  | first _ _ ihx ihy =>
    obtain ⟨m, hx⟩ := ihx
    obtain ⟨ms, hy⟩ := ihy
    rintro e rfl hroom
    exact ⟨_, .full hroom hx hy⟩
  | close hws => exact ⟨_, .close hws⟩
  | comma hws _ _ ihx ihy =>
    obtain ⟨m, hx⟩ := ihx
    obtain ⟨ms, hy⟩ := ihy
    exact ⟨_, .comma hws hx hy⟩

/-- A layout of a document is one value of the grammar. -/
theorem layout_value (hcc : cc.Prints) {d : Doc} {v : Bytes} (h : Layout o cc n d v) : ∃ x,
    Value o cc n v x := h.text hcc

end Json

end VCodec
