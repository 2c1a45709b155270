import VCodec.Cbor.Api
import VCodec.Cbor.WellFormed
import VCodec.Core.Span

/-!
# What the reader's operations pass over

An operation that decodes one value moves the reader over exactly one item of the grammar, whatever
tags stand before it. Under the validation of deterministic encoding that item is canonical, except
that no operation looks at the heads of the tags it skips: the item is `Parsed`, canonical once its
tags are in shortest form. The cursors are described by what they have read of the container they
stand in, which makes the reader an instance of `SpanLaws`.
-/

namespace VCodec.Cbor

open Run (ite_eq_ok)

variable {o : Options} {inp : Bytes}

/-! ### Parsed items -/

/-- Tags in shortest form. -/
def ShortTag : Item → Prop
  | .tag h _ => h.Shortest
  | _ => True

/-- What typed decoding knows of an item that it has read. -/
structure Parsed (o : Options) (d : Nat) (x : Item) : Prop where
  lenient : Lenient o d x
  canonical : o.requireDeterministic = true → Sat ShortTag o.maxDepth d x →
    Sat CanonicalNode o.maxDepth d x

theorem Parsed.accepts {d : Nat} {x : Item} (hx : Parsed o d x)
    (htags : o.requireDeterministic = true → Sat ShortTag o.maxDepth d x) : Accepts o d x := by
  cases hdet : o.requireDeterministic with
  | false => exact (accepts_iff_lenient hdet).2 hx.lenient
  | true =>
    refine (Sat.and hx.lenient (hx.canonical hdet (htags hdet))).imp ?_
    rintro y ⟨⟨hlax, hutf⟩, hcanon⟩
    exact ⟨hlax, hutf, fun _ => hcanon⟩

theorem Accepts.parsed {d : Nat} {x : Item} (hx : Accepts o d x) : Parsed o d x :=
  ⟨Sat.imp hx fun _ hy => ⟨hy.1, hy.2.1⟩,
    fun hdet _ => Sat.imp hx fun _ hy => hy.2.2 hdet⟩

theorem Parsed.tag {d : Nat} {x : Item} (hx : Parsed o d x) (h : Head) : Parsed o d (.tag h x) := by
  refine ⟨.tag ⟨trivial, fun _ => trivial⟩ hx.lenient, fun hdet hshort => ?_⟩
  cases hshort with
  | tag hp hrest => exact .tag hp (hx.canonical hdet hrest)

/-! ### Places and spans -/

/-- The same place in the input, at the same depth. -/
def Same (s t : State) : Prop := t.pos = s.pos ∧ t.depth = s.depth

/-- One item stands between the two places. -/
def Spans (o : Options) (inp : Bytes) (s t : State) : Prop :=
  ∃ x r, Parsed o s.depth x ∧ inp.drop s.pos = x.bytes ++ r ∧ t.pos = s.pos + x.bytes.length ∧
    t.depth = s.depth

/-- Nothing but tags stands between the two places. -/
inductive Tagged (inp : Bytes) : State → State → Prop
  | same {s t : State} (h : Same s t) : Tagged inp s t
  | tag {s t u : State} {h : Head} {r : Bytes} (hin : inp.drop s.pos = h.bytes .tag ++ r)
      (ht : t.pos = s.pos + (h.bytes .tag).length ∧ t.depth = s.depth) (hrest : Tagged inp t u) :
      Tagged inp s u

theorem Same.refl (s : State) : Same s s := ⟨rfl, rfl⟩

theorem Same.trans {s t u : State} (hst : Same s t) (htu : Same t u) : Same s u :=
  ⟨htu.1.trans hst.1, htu.2.trans hst.2⟩

theorem Same.spans {s t u : State} (hst : Same s t) (htu : Spans o inp t u) : Spans o inp s u := by
  unfold Spans at htu ⊢
  rwa [hst.1, hst.2] at htu

theorem Spans.same {s t u : State} (hst : Spans o inp s t) (htu : Same t u) : Spans o inp s u := by
  obtain ⟨x, r, hx, hin, hpos, hdepth⟩ := hst
  exact ⟨x, r, hx, hin, htu.1.trans hpos, htu.2.trans hdepth⟩

/-- A tag belongs to the item behind it. -/
theorem Spans.tag {s t u : State} {h : Head} {r : Bytes} (hin : inp.drop s.pos = h.bytes .tag ++ r)
    (ht : t.pos = s.pos + (h.bytes .tag).length ∧ t.depth = s.depth) (htu : Spans o inp t u) :
    Spans o inp s u := by
  obtain ⟨x, r', hx, hin', hpos, hdepth⟩ := htu
  rw [ht.1, drop_add hin] at hin'
  rw [ht.2] at hx hdepth
  refine ⟨.tag h x, r', hx.tag h, ?_, ?_, hdepth⟩
  · rw [hin, hin', Item.bytes, List.append_assoc]
  · rw [hpos, ht.1, Item.bytes, List.length_append, Nat.add_assoc]

theorem Tagged.spans {s t u : State} (hst : Tagged inp s t) (htu : Spans o inp t u) :
    Spans o inp s u := by
  induction hst with
  | same h => exact h.spans htu
  | tag hin ht _ ih => exact (ih htu).tag hin ht

theorem Tagged.depth {s t : State} (h : Tagged inp s t) : t.depth = s.depth := by
  induction h with
  | same h => exact h.2
  | tag _ ht _ ih => exact ih.trans ht.2

theorem Tagged.pos_le {s t : State} (h : Tagged inp s t) : s.pos ≤ t.pos := by
  induction h with
  | same h => exact h.1.ge
  | tag _ ht _ ih => omega

/-- The reader stands on an item that is accepted exactly if it is the one it has passed. -/
theorem Spans.skipValue {s t : State} (h : Spans o inp s t)
    (hdet : o.requireDeterministic = false) :
    ∃ s', skipValue o inp s = .ok () s' ∧ Same t s' := by
  obtain ⟨x, r, hx, hin, hpos, hdepth⟩ := h
  have hacc : Accepts o s.depth x := hx.accepts fun h => by rw [hdet] at h; cases h
  exact ⟨_, skipValue_ok_iff.2 ⟨x, r, hacc, hin, rfl⟩, hpos.symm, hdepth.symm⟩

/-! ### Heads -/

/-- The head behind the ignored tags, as `itemHead` has checked it. -/
inductive Fronts (o : Options) (inp : Bytes) (s : State) : ParsedHead → Prop
  | definite {m : Major} {h : Head} {r : Bytes} (hm : m ≠ .tag)
      (hin : inp.drop s.pos = h.bytes m ++ r)
      (hsimple : m = .simple → h.ai = 24 → 32 ≤ h.value)
      (hdet : o.requireDeterministic = true → m ≠ .simple → h.Shortest) :
        Fronts o inp s (h.parsed m)
  | indefinite {m : Major} {r : Bytes} (hm : m = .bytes ∨ m = .text ∨ m = .array ∨ m = .map)
      (hin : inp.drop s.pos = initialByte m 31 :: r) (hdet : o.requireDeterministic = false) :
      Fronts o inp s { mt := m, ai := 31, indefinite := true, length := 1 }

theorem scanHead_ok {expected : Bytes} {fuel p q : Nat} {h : ParsedHead} {s t : State}
    (hrun : scanHead o inp expected fuel p = .ok (q, h)) (hs : s.pos = p)
    (ht : t.pos = q ∧ t.depth = s.depth) : Tagged inp s t ∧ Fronts o inp t h := by
  induction fuel generalizing p s with
  | zero => cases hrun
  | succ fuel ih =>
    have hview := parseHead_view inp p
    rw [scanHead] at hrun
    generalize hd : inp.drop p = bs at hview
    generalize hp : parseHead inp p = g at hview hrun
    split at hrun
    · cases hrun
    simp only at hrun
    cases hview with
    | truncated hz => rw [if_pos hz] at hrun; cases hrun
    | brk r => cases hrun
    | reserved m hlo hhi r => cases hrun
    | reservedIndefinite hm r => cases hrun
    | @indefinite m hm r =>
      have hmt : m ≠ .tag ∧ m ≠ .simple := by
        rcases hm with rfl | rfl | rfl | rfl <;> exact ⟨by decide, by decide⟩
      simp only [one_ne_zero, Bool.false_eq_true, if_false, hmt.1, hmt.2, false_and,
        checkHeadDeterministic, if_true, whenStrict] at hrun
      cases hdet : o.requireDeterministic with
      | true =>
        rw [hdet] at hrun
        cases hrun
      | false =>
        rw [hdet] at hrun
        cases hrun
        have hsame : Same s t := ⟨ht.1.trans hs.symm, ht.2⟩
        exact ⟨.same hsame, .indefinite hm (by rw [ht.1, hd]) hdet⟩
    | head m h' r =>
      have hlen : ¬ (h'.parsed m).length = 0 := by simp [Head.parsed]
      rw [if_neg hlen, if_neg (by simp [Head.parsed]), if_neg (by simp [Head.parsed])] at hrun
      by_cases hm : m = .tag
      · subst hm
        rw [if_pos (show (h'.parsed .tag).mt = .tag from rfl)] at hrun
        split at hrun
        · have hs' : (s.advance (h'.bytes .tag).length).pos = p + (h'.parsed .tag).length := by
            rw [State.advance_pos, hs, h'.bytes_length]
            rfl
          obtain ⟨htagged, hfront⟩ := ih hrun hs' ht
          have hin : inp.drop s.pos = h'.bytes .tag ++ r := by rw [hs, hd]
          exact ⟨.tag (t := s.advance (h'.bytes .tag).length) hin ⟨rfl, rfl⟩ htagged, hfront⟩
        · cases hrun
      · rw [if_neg (show ¬ (h'.parsed m).mt = .tag from hm)] at hrun
        split at hrun
        · cases hrun
        rename_i hsimple
        split at hrun
        · cases hrun
        rename_i hcheck
        cases hrun
        rw [whenStrict_eq_none, checkHead_parsed] at hcheck
        have hsame : Same s t := ⟨ht.1.trans hs.symm, ht.2⟩
        refine ⟨.same hsame, .definite hm (by rw [ht.1, hd]) (fun hm hai => ?_) hcheck⟩
        by_contra hlt
        exact hsimple ⟨hm, hai, not_le.1 hlt⟩

theorem itemHead_ok {expected : Bytes} {h : ParsedHead} {s t : State}
    (hrun : itemHead o inp expected s = .ok h t) : Tagged inp s t ∧ Fronts o inp t h := by
  rw [itemHead] at hrun
  split at hrun
  · rename_i p h' hscan
    cases hrun
    exact scanHead_ok hscan rfl ⟨rfl, rfl⟩
  · cases hrun

/-- An operation that begins with a head passes what it passes from there. -/
theorem spans_of_head {α : Type} {expected : Bytes} {k : ParsedHead → M α} {a : α} {s u : State}
    (hrun : (do k (← itemHead o inp expected)) s = .ok a u)
    (hk : ∀ h t, Fronts o inp t h → k h t = .ok a u → Spans o inp t u) : Spans o inp s u := by
  rw [Run.bind_eq_ok] at hrun
  obtain ⟨h, t, hhead, hrest⟩ := hrun
  obtain ⟨htagged, hfront⟩ := itemHead_ok hhead
  exact htagged.spans (hk h t hfront hrest)

/-! ### Scalars -/

section Scalar

variable {α : Type} {a : α} {s t : State} {h : ParsedHead} {expected detail : Bytes}

@[simp] theorem consume_eq_ok {u : Unit} : consume h s = .ok u t ↔ s.advance h.length = t := by
  simp [consume]

@[simp] theorem throwType_ne_ok : ¬ (throwType inp expected h : M α) s = .ok a t := by
  simp [throwType]

@[simp] theorem throwRange_ne_ok : ¬ (throwRange detail h : M α) s = .ok a t := by
  simp [throwRange]

@[simp] theorem throwTag_ne_ok : ¬ (throwTag expected h : M α) s = .ok a t := by
  simp [throwTag]

/-- A head without content is an item. -/
theorem Fronts.leaf (hf : Fronts o inp s h) (hm : h.mt = .uint ∨ h.mt = .nint ∨ h.mt = .simple)
    (hfloat : o.requireDeterministic = true → h.mt = .simple → 25 ≤ h.ai →
      PreferredFloat h.ai h.value) : Spans o inp s (s.advance h.length) := by
  cases hf with
  | @definite m h r hmt hin hsimple hdet =>
    refine ⟨.leaf m h, r, ⟨.leaf ⟨⟨hm, hsimple⟩, fun _ => trivial⟩, fun hstrict _ => ?_⟩, hin, ?_,
      rfl⟩
    · exact .leaf ⟨fun hne => hdet hstrict hne, fun heq hai => hfloat hstrict heq hai⟩
    · rw [Item.bytes, h.bytes_length]
      rfl
  | indefinite hmt => rcases hmt with rfl | rfl | rfl | rfl <;> simp at hm

theorem Fronts.integer (hf : Fronts o inp s h) (hm : h.mt = .uint ∨ h.mt = .nint) :
    Spans o inp s (s.advance h.length) := by
  refine hf.leaf (hm.imp_right .inl) fun _ hsimple => ?_
  rcases hm with hm | hm <;> rw [hm] at hsimple <;> cases hsimple

theorem Fronts.narrow (hf : Fronts o inp s h) (hm : h.mt = .simple) (hai : h.ai < 25) :
    Spans o inp s (s.advance h.length) :=
  hf.leaf (.inr (.inr hm)) fun _ _ h25 => absurd h25 (not_le.2 hai)

theorem spans_expectNull {u : Unit} (hrun : expectNull o inp s = .ok u t) : Spans o inp s t := by
  refine spans_of_head hrun fun h s' hf hk => ?_
  simp only [ite_eq_ok, consume_eq_ok, throwType_ne_ok, and_false, or_false] at hk
  obtain ⟨⟨hm, hai⟩, rfl⟩ := hk
  exact hf.narrow hm (by omega)

theorem spans_expectBoolean {b : Bool} (hrun : expectBoolean o inp s = .ok b t) :
    Spans o inp s t := by
  refine spans_of_head hrun fun h s' hf hk => ?_
  simp only [ite_eq_ok, Run.bind_eq_ok, consume_eq_ok, throwType_ne_ok, and_false, or_false,
    Run.pure_apply, EStateM.Result.ok.injEq] at hk
  obtain ⟨⟨hm, hai⟩, _, _, rfl, -, rfl⟩ := hk
  exact hf.narrow hm (by omega)

theorem spans_expectUint {n : Nat} (hrun : expectUint o inp s = .ok n t) : Spans o inp s t := by
  refine spans_of_head hrun fun h s' hf hk => ?_
  simp only [ite_eq_ok, Run.bind_eq_ok, consume_eq_ok, throwType_ne_ok, throwRange_ne_ok, and_false,
    or_false, Run.pure_apply, EStateM.Result.ok.injEq] at hk
  obtain ⟨hm, _, _, rfl, -, rfl⟩ := hk
  exact hf.integer (.inl hm)

theorem spans_expectSint {i : Int} (hrun : expectSint o inp s = .ok i t) : Spans o inp s t := by
  refine spans_of_head hrun fun h s' hf hk => ?_
  simp only [ite_eq_ok, Run.bind_eq_ok, consume_eq_ok, throwType_ne_ok, throwRange_ne_ok, and_false,
    false_or, or_false, Run.pure_apply, EStateM.Result.ok.injEq] at hk
  obtain ⟨hm, -, _, _, rfl, -, rfl⟩ | ⟨-, hm, -, _, _, rfl, -, rfl⟩ := hk
  · exact hf.integer (.inl hm)
  · exact hf.integer (.inr hm)

theorem spans_expectReal {d : Double} (hrun : expectReal o inp s = .ok d t) : Spans o inp s t := by
  refine spans_of_head hrun fun h s' hf hk => ?_
  simp only [ite_eq_ok, Run.bind_eq_ok, consume_eq_ok, throwType_ne_ok, and_false, or_false,
    Run.pure_apply, EStateM.Result.ok.injEq] at hk
  obtain ⟨hm, _, _, rfl, -, rfl⟩ | ⟨-, ⟨hm, _, _, rfl, -, rfl⟩ | ⟨-, ⟨hm, -⟩, hk⟩⟩ := hk
  · exact hf.integer (.inl hm)
  · exact hf.integer (.inr hm)
  · obtain ⟨_, _, hget, hk⟩ := hk
    cases hget
    cases hcheck :
      whenStrict o (checkPreferredFloat (floatOf h.ai h.value) h.ai h.value s'.pos) with
    | some e =>
      rw [hcheck] at hk
      cases hk
    | none =>
      simp only [hcheck, Run.bind_eq_ok, consume_eq_ok, Run.pure_apply,
        EStateM.Result.ok.injEq] at hk
      obtain ⟨_, _, rfl, -, rfl⟩ := hk
      rw [whenStrict_eq_none, checkPreferredFloat_eq_none] at hcheck
      exact hf.leaf (.inr (.inr hm)) fun hdet _ _ => hcheck hdet

end Scalar

/-! ### Strings -/

/-- The code validates a definite text as a whole, and a chunked one chunk by chunk. -/
theorem Fronts.string (isText : Bool) {s t : State} {h : ParsedHead} {x : Bytes × Bool}
    (hf : Fronts o inp s h) (hm : h.mt = strMajor isText)
    (hrun : readString o inp h (strMajor isText) s = .ok x t)
    (hutf : o.validateUtf8 = true → isText = true → Utf8.Valid x.1) : Spans o inp s t := by
  cases hf with
  | @definite m h r hmt hin hsimple hdet =>
    obtain rfl : m = strMajor isText := hm
    obtain ⟨hle, rfl, rfl⟩ := (readString_definite hin).1 hrun
    refine ⟨.str isText h (r.take h.value), r.drop h.value,
      ⟨.str ⟨?_, fun hv => ?_⟩, fun hstrict _ => ?_⟩,
      ?_, ?_, rfl⟩
    · exact List.length_take_of_le hle
    · cases isText with
      | false => trivial
      | true => exact hutf hv rfl
    · exact .str (hdet hstrict (strMajor_ne_simple isText))
    · rw [hin, Item.bytes, List.append_assoc, List.take_append_drop]
    · rw [Item.bytes, List.length_append, List.length_take_of_le hle, State.advance_pos]
  | @indefinite m r hmt hin hdet =>
    obtain rfl : m = strMajor isText := hm
    obtain ⟨-, cs, r', hcs, hin', -, rfl⟩ := (readString_indefinite rfl rfl hin).1 hrun
    obtain ⟨hlax, hvalid⟩ := chunkOk_iff.1 hcs
    refine ⟨.chunked isText cs, r', ⟨.chunked ⟨hlax, hvalid⟩, fun hstrict _ => ?_⟩, hin', rfl, rfl⟩
    rw [hdet] at hstrict
    cases hstrict

theorem spans_expectText {x : TextRef} {s t : State} (hrun : expectText o inp s = .ok x t) :
    Spans o inp s t := by
  refine spans_of_head hrun fun h s' hf hk => ?_
  simp only [ite_eq_ok, Run.bind_eq_ok, throwType_ne_ok, and_false, false_or, not_not, ne_eq] at hk
  obtain ⟨hm, r, u, hread, s₂, u', hget, hk⟩ := hk
  cases hget
  cases hvalid : (if o.validateUtf8 = true then validateUtf8 r.1 else none) with
  | some bad =>
    rw [hvalid] at hk
    cases hk
  | none =>
    simp only [hvalid] at hk
    cases hk
    refine hf.string true hm hread fun hv _ => ?_
    rw [if_pos hv] at hvalid
    exact validateUtf8_eq_none.1 hvalid

theorem spans_expectBytes {x : BytesRef} {s t : State} (hrun : expectBytes o inp s = .ok x t) :
    Spans o inp s t := by
  refine spans_of_head hrun fun h s' hf hk => ?_
  simp only [ite_eq_ok, Run.bind_eq_ok, throwType_ne_ok, and_false, false_or, not_not, ne_eq,
    Run.pure_apply, EStateM.Result.ok.injEq] at hk
  obtain ⟨hm, r, u, hread, -, rfl⟩ := hk
  exact hf.string false hm hread fun _ ht => by cases ht

/-! ### Tags -/

/-- The head that `rawHead` returns, if it is a tag. -/
theorem rawHead_tag {s t : State} {h : ParsedHead} (hrun : rawHead inp s = .ok h t)
    (hm : h.mt = .tag) :
    t = s ∧ ∃ (h' : Head) (r : Bytes), inp.drop s.pos = h'.bytes .tag ++ r ∧
      h.length = (h'.bytes .tag).length := by
  simp only [rawHead] at hrun
  split at hrun
  · cases hrun
  split at hrun
  · cases hrun
  rename_i hlen
  split at hrun
  · cases hrun
  rename_i hres
  split at hrun
  · cases hrun
  rename_i hbrk
  cases hrun
  have hview := parseHead_view inp s.pos
  generalize hd : inp.drop s.pos = bs at hview
  generalize parseHead inp s.pos = g at hview hlen hres hbrk hm
  refine ⟨rfl, ?_⟩
  cases hview with
  | truncated hz => exact absurd hz hlen
  | brk r => exact absurd rfl hbrk
  | reserved m hlo hhi r => exact absurd rfl hres
  | reservedIndefinite hm r => exact absurd rfl hres
  | indefinite hmt r => rcases hmt with rfl | rfl | rfl | rfl <;> cases hm
  | head m h r =>
    obtain rfl : m = .tag := hm
    exact ⟨h, r, rfl, (h.bytes_length .tag).symm⟩

theorem rawHead_state {s t : State} {h : ParsedHead} (hrun : rawHead inp s = .ok h t) : t = s := by
  simp only [rawHead] at hrun
  split_ifs at hrun
  cases hrun
  rfl

theorem tagged_expectTags {ts : List Nat} {s t : State} {u : Unit}
    (hrun : expectTags inp ts s = .ok u t) : Tagged inp s t := by
  induction ts generalizing s with
  | nil =>
    cases hrun
    exact .same ⟨rfl, rfl⟩
  | cons tag ts ih =>
    simp only [expectTags, Run.bind_eq_ok, ite_eq_ok, throwTag_ne_ok, and_false, false_or, not_or,
      not_not, ne_eq, consume_eq_ok] at hrun
    obtain ⟨h, s₁, hraw, ⟨hm, -⟩, _, _, rfl, hrest⟩ := hrun
    obtain ⟨rfl, h', r, hin, hlen⟩ := rawHead_tag hraw hm
    rw [hlen] at hrest
    exact .tag (t := s₁.advance (h'.bytes .tag).length) hin ⟨rfl, rfl⟩ (ih hrest)

/-- A typed array is its tag and its bytes. -/
theorem rangeBytes_ok {x : Option (Nat × Bytes × Nat)} {s t : State}
    (hrun : rangeBytes o inp s = .ok x t) : if x.isSome then Spans o inp s t else t = s := by
  simp only [rangeBytes, Run.bind_eq_ok, ite_eq_ok, Run.pure_apply, EStateM.Result.ok.injEq] at hrun
  obtain ⟨h, s₁, hraw, ⟨-, rfl, rfl⟩ | ⟨hrange, s₂, s₃, hget, y, s₄, hbehind, rfl, rfl⟩⟩ := hrun
  · exact rawHead_state hraw
  · cases hget
    simp only [not_or, not_not, ne_eq] at hrange
    obtain ⟨rfl, h', r, hin, hlen⟩ := rawHead_tag hraw hrange.1
    unfold behind at hbehind
    cases hbytes : expectBytes o inp (s₁.advance h.length) with
    | error e s' =>
      rw [hbytes] at hbehind
      cases hbehind
    | ok y s' =>
      rw [hbytes] at hbehind
      cases hbehind
      have ht : (s₁.advance h.length).pos = s₁.pos + (h'.bytes .tag).length := by
        rw [State.advance_pos, hlen]
      exact Spans.tag (t := s₁.advance h.length) hin ⟨ht, rfl⟩ (spans_expectBytes hbytes)

theorem fillRange_reader {element : Nat → Except Error Val} {ws : List Nat} {olds : List Val}
    {b b' : Build State} {u : Unit} (hrun : fillRange element ws olds b = .ok u b') :
    b'.reader = b.reader := by
  simp only [fillRange] at hrun
  split at hrun
  · cases hrun
    rfl
  · cases hrun

/-- Filling the range leaves the reader where it is. -/
theorem typedArrayInto_reader
    {env : Env} {tag off : Nat} {bytes : Bytes} {t : Ty} {b b' : Build State} {u : Unit}
    (hrun : typedArrayInto env tag bytes t off b = .ok u b') : b'.reader = b.reader := by
  simp only [typedArrayInto, ite_eq_ok, D.fail_ne_ok, and_false, false_or, or_false, Run.bind_eq_ok,
    D.getOut_eq_ok] at hrun
  obtain ⟨-, -, -, _, _, ⟨-, rfl⟩, hfill⟩ := hrun
  exact fillRange_reader hfill

theorem readRange_ok {env : Env} {t : Ty} {handled : Bool} {b b' : Build State}
    (hrun : readRange env o inp t b = .ok handled b') :
    if handled then Spans o inp b.reader b'.reader else Same b.reader b'.reader := by
  simp only [readRange, ite_eq_ok, D.pure_eq_ok, Run.bind_eq_ok, D.call_eq_ok] at hrun
  obtain ⟨-, rfl, rfl⟩ | ⟨-, range, _, ⟨s, hrange, rfl⟩, hrun⟩ := hrun
  · exact ⟨rfl, rfl⟩
  · have hspan : if range.isSome then Spans o inp b.reader s else s = b.reader :=
      rangeBytes_ok hrange
    cases range with
    | none =>
      rw [D.pure_eq_ok] at hrun
      obtain ⟨rfl, rfl⟩ := hrun
      obtain rfl : s = b.reader := hspan
      exact ⟨rfl, rfl⟩
    | some x =>
      obtain ⟨tag, bytes, start⟩ := x
      simp only [Run.bind_eq_ok, D.pure_eq_ok] at hrun
      obtain ⟨_, b₁, hinto, rfl, rfl⟩ := hrun
      rw [typedArrayInto_reader hinto]
      exact hspan

/-! ### Containers -/

/-- Up to `t` the container that begins at `s` has been read as far as its elements `xs`. -/
structure Inside (o : Options) (inp : Bytes) (isMap : Bool) (s : State) (count : Option Head)
    (xs : List Item) (t : State) : Prop where
  room : s.depth < o.maxDepth
  depth : t.depth = s.depth + 1
  definite : o.requireDeterministic = true → ∃ h, count = some h ∧ h.Shortest
  items : ∀ x ∈ xs, Parsed o (s.depth + 1) x
  pos : t.pos = s.pos + (frontBytes (containerMajor isMap, count) ++ Item.bytesList xs).length
  bytes : ∃ r, inp.drop s.pos = (frontBytes (containerMajor isMap, count) ++ Item.bytesList xs) ++ r

/-- What a cursor counts when `n` of the announced elements have been begun. -/
def Counts (count : Option Head) (n : Nat) (remaining : Option Nat) : Prop :=
  remaining.map (· + n) = count.map Head.value

theorem bytesList_append_singleton (xs : List Item) (x : Item) :
    Item.bytesList (xs ++ [x]) = Item.bytesList xs ++ x.bytes := by
  simp [Item.bytesList_eq]

section Inside

variable {isMap : Bool} {s t u : State} {count : Option Head} {xs : List Item}

theorem Inside.push (hin : Inside o inp isMap s count xs t) (hspan : Spans o inp t u) :
    ∃ x r, Parsed o t.depth x ∧ inp.drop t.pos = x.bytes ++ r ∧
      Inside o inp isMap s count (xs ++ [x]) u := by
  obtain ⟨x, r, hx, hbytes, hpos, hdepth⟩ := hspan
  obtain ⟨r', hr'⟩ := hin.bytes
  have hrest : r' = x.bytes ++ r := by rw [← drop_add hr', ← hin.pos, hbytes]
  refine ⟨x, r, hx, hbytes, hin.room, hdepth.trans hin.depth, hin.definite, fun y hy => ?_, ?_, r,
    ?_⟩
  · rcases List.mem_append.1 hy with hy | hy
    · exact hin.items y hy
    · rw [List.mem_singleton.1 hy, ← hin.depth]
      exact hx
  · simp only [hpos, hin.pos, bytesList_append_singleton, List.length_append]
    omega
  · rw [hr', hrest, bytesList_append_singleton]
    simp only [List.append_assoc]

theorem Inside.bound (hin : Inside o inp isMap s count xs t) : t.pos ≤ inp.length := by
  obtain ⟨r, hr⟩ := hin.bytes
  have hlen := congrArg List.length hr
  rw [List.length_drop, List.length_append] at hlen
  have hpos := hin.pos
  have hfront : 0 < (frontBytes (containerMajor isMap, count)).length := by
    cases count <;> simp [frontBytes, Head.bytes]
  rw [List.length_append] at hlen hpos
  omega

/-- The container ends behind the elements that a definite head announced. -/
theorem Inside.closeDefinite {h : Head} (hin : Inside o inp isMap s (some h) xs t)
    (hcount : xs.length = if isMap then 2 * h.value else h.value) (hsize : inp.length < 2 ^ 64)
    (hkeys : o.requireDeterministic = true → (∀ x ∈ xs, Sat ShortTag o.maxDepth (s.depth + 1) x) →
      isMap = true → KeysAscend true none xs) : Spans o inp s { t with depth := t.depth - 1 } := by
  obtain ⟨r, hr⟩ := hin.bytes
  have hlen := congrArg List.length hr
  have hxs := Item.length_le_bytesList xs
  rw [List.length_drop, List.length_append, List.length_append] at hlen
  have hlax : LaxNode (.container isMap (some h) xs) := by
    refine hcount.trans (skipCount_of_le fun hmap => ?_).symm
    rw [hmap, if_pos rfl] at hcount
    omega
  refine ⟨.container isMap (some h) xs, r, ⟨?_, fun hstrict hshort => ?_⟩, hr, hin.pos, ?_⟩
  · exact .container ⟨hlax, fun _ => by cases isMap <;> trivial⟩ hin.room fun x hx =>
      (hin.items x hx).lenient
  · cases hshort with
    | container _ _ hshorts =>
      obtain ⟨h', heq, hh⟩ := hin.definite hstrict
      cases heq
      exact .container ⟨hh, hkeys hstrict hshorts⟩ hin.room fun x hx =>
        (hin.items x hx).canonical hstrict (hshorts x hx)
  · show t.depth - 1 = s.depth
    rw [hin.depth, Nat.add_sub_cancel]

/-- A break ends the container of indefinite length. -/
theorem Inside.closeIndefinite (hin : Inside o inp isMap s none xs t)
    (hbrk : (inp.drop t.pos).head? = some breakByte) (heven : isMap = true → xs.length % 2 = 0) :
    Spans o inp s { t with pos := t.pos + 1, depth := t.depth - 1 } := by
  obtain ⟨r, hr⟩ := hin.bytes
  rw [hin.pos, drop_add hr] at hbrk
  obtain ⟨r', rfl⟩ := List.head?_eq_some_iff.1 hbrk
  refine ⟨.container isMap none xs, r', ⟨?_, fun hstrict _ => ?_⟩, ?_, ?_, ?_⟩
  · exact .container ⟨heven, fun _ => by cases isMap <;> trivial⟩ hin.room fun x hx =>
      (hin.items x hx).lenient
  · obtain ⟨h, heq, -⟩ := hin.definite hstrict
    cases heq
  · rw [hr]
    simp [Item.bytes, frontBytes]
  · show t.pos + 1 = _
    rw [hin.pos]
    simp [Item.bytes, frontBytes, Nat.add_assoc]
  · show t.depth - 1 = s.depth
    rw [hin.depth, Nat.add_sub_cancel]

end Inside

theorem expectContainer_ok {isMap : Bool} {expected : Bytes} {remaining : Option Nat} {s t : State}
    (hrun : expectContainer o inp isMap expected s = .ok remaining t) :
    ∃ s₀ count, Tagged inp s s₀ ∧ Inside o inp isMap s₀ count [] t ∧ Counts count 0 remaining := by
  simp only [expectContainer, Run.bind_eq_ok, ite_eq_ok, throwType_ne_ok, and_false, false_or,
    not_not,
    ne_eq, enter] at hrun
  obtain ⟨h, s₀, hhead, hm, hrun⟩ := hrun
  obtain ⟨htagged, hfront⟩ := itemHead_ok hhead
  split at hrun
  · cases hrun
  rename_i hroom
  cases hrun
  refine ⟨s₀, ?_⟩
  cases hfront with
  | @definite m h r hmt hin hsimple hdet =>
    obtain rfl : m = containerMajor isMap := hm
    refine ⟨some h, htagged, ⟨not_le.1 hroom, rfl, fun hstrict => ?_, by simp, ?_, r, ?_⟩, ?_⟩
    · exact ⟨h, rfl, hdet hstrict (containerMajor_ne_simple isMap)⟩
    · simp [Head.parsed, frontBytes, Item.bytesList, h.bytes_length]
    · simpa [frontBytes, Item.bytesList] using hin
    · simp [Counts, Head.parsed]
  | @indefinite m r hmt hin hdet =>
    obtain rfl : m = containerMajor isMap := hm
    refine ⟨none, htagged, ⟨not_le.1 hroom, rfl, fun hstrict => ?_, by simp, ?_, r, ?_⟩, ?_⟩
    · rw [hdet] at hstrict
      cases hstrict
    · simp [frontBytes, Item.bytesList]
    · simpa [frontBytes, Item.bytesList] using hin
    · simp [Counts]

end VCodec.Cbor
