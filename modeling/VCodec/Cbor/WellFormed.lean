import VCodec.Cbor.Skip

/-!
# Well-formed items

An item of RFC 8949, against what the validator lets through. The two languages differ by the
items with a `Slip`: a string chunk whose head is reserved, which is read as an empty chunk, and a
definite map whose doubled count does not fit in 64 bits, which is read with the wrapped count.
-/

namespace VCodec.Cbor

variable {o : Options} {inp : Bytes}

/-- A well-formed item, with valid text if the options ask for it, nested within the limit. -/
def WellFormed (o : Options) (d : Nat) (x : Item) : Prop :=
  Sat (fun y => WellFormedNode y ∧ (o.validateUtf8 = true → Utf8Node y)) o.maxDepth d x

/-- An item with the leniency of the reader: chunks may be reserved and map counts may wrap. -/
def Lenient (o : Options) (d : Nat) (x : Item) : Prop :=
  Sat (fun y => LaxNode y ∧ (o.validateUtf8 = true → Utf8Node y)) o.maxDepth d x

/-- A node where the leniency shows. -/
def Slip : Item → Prop
  | .chunked _ chunks => ∃ c ∈ chunks, ∃ ai, c.head = .reserved ai
  | .container true (some h) _ => 2 ^ 63 < h.value
  | _ => False

theorem accepts_iff_lenient (hdet : o.requireDeterministic = false) {d : Nat} {x : Item} :
    Accepts o d x ↔ Lenient o d x := by
  constructor
  · exact fun h => Sat.imp h fun y hy => ⟨hy.1, hy.2.1⟩
  · exact fun h => Sat.imp h fun y hy => ⟨hy.1, hy.2, fun hs => by rw [hdet] at hs; cases hs⟩

theorem skipCount_of_le {isMap : Bool} {n : Nat} (h : isMap = true → n ≤ 2 ^ 63) :
    skipCount isMap n = if isMap then 2 * n else n := by
  unfold skipCount
  cases isMap with
  | false =>
    simp only [Bool.false_eq_true, if_false]
    split <;> omega
  | true =>
    have := h rfl
    simp only [if_true]
    split_ifs <;> omega

theorem LaxNode.wellFormed {x : Item} (hx : LaxNode x) (hs : ¬ Slip x) : WellFormedNode x := by
  cases x with
  | leaf m h => exact hx
  | str t h payload => exact hx
  | chunked t chunks =>
    intro c hc
    have hlax := hx c hc
    obtain ⟨head, payload⟩ := c
    cases head with
    | definite h => exact ⟨h, rfl, hlax⟩
    | reserved ai => exact absurd ⟨_, hc, ai, rfl⟩ hs
  | container isMap count xs =>
    cases count with
    | none => exact hx
    | some h =>
      have hle : isMap = true → h.value ≤ 2 ^ 63 := by
        rintro rfl
        exact not_lt.1 hs
      exact Eq.trans hx (skipCount_of_le hle)
  | tag h x => trivial

theorem WellFormedNode.lax {x : Item} (hx : WellFormedNode x) (hlen : x.bytes.length < 2 ^ 64) :
    LaxNode x ∧ ¬ Slip x := by
  cases x with
  | leaf m h => exact ⟨hx, id⟩
  | str t h payload => exact ⟨hx, id⟩
  | chunked t chunks =>
    refine ⟨fun c hc => ?_, ?_⟩
    · obtain ⟨h, hhead, hpay⟩ := hx c hc
      rw [hhead]
      exact hpay
    · rintro ⟨c, hc, ai, hhead⟩
      obtain ⟨h, hhead', -⟩ := hx c hc
      rw [hhead] at hhead'
      cases hhead'
  | container isMap count xs =>
    cases count with
    | none => exact ⟨hx, by cases isMap <;> exact id⟩
    | some h =>
      have hcount : xs.length = if isMap then 2 * h.value else h.value := hx
      have hle : xs.length < 2 ^ 64 := by
        rw [Item.bytes, List.length_append] at hlen
        have := Item.length_le_bytesList xs
        omega
      have hmap : isMap = true → h.value ≤ 2 ^ 63 := by
        rintro rfl
        rw [if_pos rfl] at hcount
        omega
      refine ⟨hcount.trans (skipCount_of_le hmap).symm, ?_⟩
      cases isMap with
      | false => exact id
      | true => exact not_lt.2 (hmap rfl)
  | tag h x => exact ⟨trivial, id⟩

/-- In an item shorter than `2 ^ 64` bytes the validator sees the counts as they are. -/
theorem WellFormed.lenient {d : Nat} {x : Item} (hx : WellFormed o d x)
    (hlen : x.bytes.length < 2 ^ 64) :
    Sat (fun y => (LaxNode y ∧ (o.validateUtf8 = true → Utf8Node y)) ∧ ¬ Slip y) o.maxDepth d
      x := by
  unfold WellFormed at hx
  have step : ∀ y : Item, y.bytes.length < 2 ^ 64 →
      WellFormedNode y ∧ (o.validateUtf8 = true → Utf8Node y) →
      (LaxNode y ∧ (o.validateUtf8 = true → Utf8Node y)) ∧ ¬ Slip y := fun y hy hp =>
    ⟨⟨(hp.1.lax hy).1, hp.2⟩, (hp.1.lax hy).2⟩
  induction hx with
  | leaf hp => exact .leaf (step _ hlen hp)
  | str hp => exact .str (step _ hlen hp)
  | chunked hp => exact .chunked (step _ hlen hp)
  | @container d isMap count xs hp hd hxs ih =>
    refine .container (step _ hlen hp) hd fun x hx => ih x hx ?_
    have hmem := Item.length_le_of_mem hx
    have := Item.bytesList_le_bytes isMap count xs
    omega
  | @tag d h x hp hx ih =>
    refine .tag (step _ hlen hp) (ih ?_)
    rw [Item.bytes, List.length_append] at hlen
    omega

/-- The validator accepts the well-formed items, and those only, that start at the position. -/
def SkipsWellFormed (o : Options) (inp : Bytes) (s : State) : Prop :=
  ∀ s', skipValue o inp s = .ok () s' ↔
    ∃ x r, WellFormed o s.depth x ∧ inp.drop s.pos = x.bytes ++ r ∧ s' = s.advance x.bytes.length

/-- The validator recognises well-formedness exactly where no lenient item starts that has a
reserved chunk head or a map count above `2 ^ 63`. -/
theorem skipsWellFormed_iff (hdet : o.requireDeterministic = false) (hinp : inp.length < 2 ^ 64)
    (s : State) :
    SkipsWellFormed o inp s ↔
      ∀ x r, Lenient o s.depth x → inp.drop s.pos = x.bytes ++ r →
        Sat (fun y => ¬ Slip y) o.maxDepth s.depth x := by
  have hshort : ∀ x r, inp.drop s.pos = x.bytes ++ r → (x : Item).bytes.length < 2 ^ 64 := by
    intro x r hin
    have := congrArg List.length hin
    rw [List.length_drop, List.length_append] at this
    omega
  constructor
  · intro h x r hx hin
    have hskip := skipValue_ok_iff.2 ⟨x, r, (accepts_iff_lenient hdet).2 hx, hin, rfl⟩
    obtain ⟨y, r', hy, hin', -⟩ := (h _).1 hskip
    have hy' := hy.lenient (hshort y r' hin')
    have hlax : Sat LaxNode o.maxDepth s.depth y := hy'.imp fun z hz => hz.1.1
    obtain ⟨rfl, -⟩ := (Sat.imp hx fun z hz => hz.1).unambiguous y _ _ _ _ hlax
      (hin.symm.trans hin')
    exact hy'.imp fun z hz => hz.2
  · intro h s'
    rw [skipValue_ok_iff]
    constructor
    · rintro ⟨x, r, hx, hin, rfl⟩
      have hlen := (accepts_iff_lenient hdet).1 hx
      have hwf := Sat.and hlen (h x r hlen hin)
      exact ⟨x, r, hwf.imp fun y hy => ⟨hy.1.1.wellFormed hy.2, hy.1.2⟩, hin, rfl⟩
    · rintro ⟨x, r, hx, hin, rfl⟩
      have hx' := hx.lenient (hshort x r hin)
      exact ⟨x, r, (accepts_iff_lenient hdet).2 (hx'.imp fun y hy => hy.1), hin, rfl⟩

theorem skipsWellFormed_iff_witness :
    SkipsWellFormed {} [0x82, 0x01, 0x60] {} ↔
      ∀ x r, Lenient {} 0 x → [0x82, 0x01, 0x60] = x.bytes ++ r →
        Sat (fun y => ¬ Slip y) 256 0 x :=
  skipsWellFormed_iff rfl (by decide) {}

/-- An indefinite text string whose only chunk has the reserved head `7c` is accepted. -/
theorem skipsWellFormed_not_reserved : ¬ SkipsWellFormed {} [0x7F, 0x7C, 0xFF] {} := by
  intro h
  have hskip : skipValue {} [0x7F, 0x7C, 0xFF] {} = .ok () { pos := 3 } := by rfl
  obtain ⟨y, r, hy, hin, -⟩ := (h _).1 hskip
  have hlen : y.bytes.length < 2 ^ 64 := by
    have := congrArg List.length hin
    rw [List.length_append] at this
    simp only [List.drop_zero, List.length_cons, List.length_nil] at this
    omega
  have hlax : Sat LaxNode 256 0 y := (hy.lenient hlen).imp fun z hz => hz.1.1
  have hslip : Sat LaxNode 256 0 (.chunked true [⟨.reserved 28, []⟩]) :=
    .chunked (by simp [LaxNode])
  obtain ⟨rfl, -⟩ := hslip.unambiguous y 256 0 [] r hlax hin
  obtain ⟨h, hhead, -⟩ := hy.node.1 ⟨.reserved 28, []⟩ (by simp)
  cases hhead

end VCodec.Cbor
