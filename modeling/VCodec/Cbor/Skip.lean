import VCodec.Cbor.Strings

/-!
# The generic validator

`skipValue` accepts exactly the items of the grammar whose nodes satisfy `SkipNode`, and ends behind
them at the depth it started from (`skipValue_ok_iff`). The loop keeps its own stack, so both
directions speak about a run with a stack: `Closes` says what is still to be read when an item has
just ended.
-/

namespace VCodec.Cbor

variable {o : Options} {inp : Bytes}

/-- The reader's validator accepts the item from depth `d`. -/
def Accepts (o : Options) (d : Nat) (x : Item) : Prop :=
  Sat (SkipNode o.validateUtf8 o.requireDeterministic) o.maxDepth d x

theorem Accepts.lax {d : Nat} {x : Item} (h : Accepts o d x) : Sat LaxNode o.maxDepth d x :=
  Sat.imp h fun _ hy => hy.1

/-! ### Checks -/

theorem whenStrict_eq_none {e : Option Error} :
    whenStrict o e = none ↔ (o.requireDeterministic = true → e = none) := by
  cases h : o.requireDeterministic <;> simp [whenStrict, h]

theorem ite_some_eq_none {c : Prop} [Decidable c] {e : Error} :
    (if c then some e else none) = none ↔ ¬ c := by
  rw [ite_eq_right_iff]
  simp

theorem checkHead_parsed {h : Head} {m : Major} {pos : Nat} :
    checkHeadDeterministic (h.parsed m) pos = none ↔ (m ≠ .simple → h.Shortest) := by
  have hind : (h.parsed m).indefinite = false := rfl
  have hmt : (h.parsed m).mt = m := rfl
  rw [checkHeadDeterministic, hind, hmt, if_neg Bool.false_ne_true, ite_some_eq_none]
  by_cases hm : m = .simple
  · simp [hm]
  · simp [hm, ← Head.shortest_parsed hm]

theorem checkPreferredFloat_eq_none {ai raw pos : Nat} :
    checkPreferredFloat (floatOf ai raw) ai raw pos = none ↔ PreferredFloat ai raw := by
  unfold checkPreferredFloat PreferredFloat
  split <;> simp only [ite_some_eq_none, not_not]

theorem keyOrderError_eq_none (cur prev : Bytes) (start : Nat) :
    keyOrderError cur prev start = none ↔ prev < cur := by
  rw [keyOrderError, ite_some_eq_none, not_or, not_lt_and_ne_iff]

/-! ### One head -/

/-- Items that one round of the loop reads whole. -/
def Item.Flat : Item → Prop
  | .leaf _ _ | .str _ _ _ | .chunked _ _ => True
  | .container _ (some _) [] => True
  | _ => False

/-- What a successful round of the loop has read. -/
inductive HeadStep (o : Options) (inp : Bytes) (stack : List Level) (s : State) :
    Step → State → Prop
  | brk {top : Level} {rest : List Level} {r : Bytes} (hstack : stack = top :: rest)
      (hrem : top.remaining = none)
      (hkey : top.isMap = true → top.keyNext = true) (hin : inp.drop s.pos = breakByte :: r) :
      HeadStep o inp stack s (.done rest) { s with pos := s.pos + 1, depth := s.depth - 1 }
  | flat {x : Item} {r : Bytes} (hx : Accepts o s.depth x) (hflat : x.Flat)
      (hin : inp.drop s.pos = x.bytes ++ r) :
      HeadStep o inp stack s (.done stack) (s.advance x.bytes.length)
  | openDefinite {isMap : Bool} {h : Head} {r : Bytes}
      (hin : inp.drop s.pos = h.bytes (containerMajor isMap) ++ r)
      (hd : s.depth < o.maxDepth) (hne : h.value ≠ 0)
        (hdet : o.requireDeterministic = true → h.Shortest) :
      HeadStep o inp stack s
        (.again ({ isMap, remaining := some (if isMap then h.value * 2 % 2 ^ 64 else h.value) } ::
          stack))
        { s with pos := s.pos + (h.bytes (containerMajor isMap)).length, depth := s.depth + 1 }
  | openIndefinite {isMap : Bool} {r : Bytes}
      (hin : inp.drop s.pos = initialByte (containerMajor isMap) 31 :: r)
      (hd : s.depth < o.maxDepth) (hdet : o.requireDeterministic = false) :
      HeadStep o inp stack s (.again ({ isMap, remaining := none } :: stack))
        { s with pos := s.pos + 1, depth := s.depth + 1 }
  | tag {h : Head} {r : Bytes} (hin : inp.drop s.pos = h.bytes .tag ++ r) (hr : r ≠ [])
      (hbrk : r.head? ≠ some breakByte)
      (hdet : o.requireDeterministic = true → h.Shortest) :
      HeadStep o inp stack s (.again stack) (s.advance (h.bytes .tag).length)

section Head

variable {stack : List Level} {s s₁ : State} {step : Step} {m : Major} {h : Head} {r : Bytes}

theorem skipHead_head (hin : inp.drop s.pos = h.bytes m ++ r) :
    skipHead o inp stack s = .ok step s₁ ↔
      (o.requireDeterministic = true → m ≠ .simple → h.Shortest) ∧
        skipBody o inp stack (h.parsed m) s = .ok step s₁ := by
  have hz : ¬ (h.parsed m).length = 0 := by simp [Head.parsed]
  have hbrk : ¬ (h.parsed m).isBreak = true := Bool.false_ne_true
  have hres : ¬ (h.parsed m).reserved = true := Bool.false_ne_true
  have hcheck : whenStrict o (checkHeadDeterministic (h.parsed m) s.pos) = none ↔
      (o.requireDeterministic = true → m ≠ .simple → h.Shortest) := by
    rw [whenStrict_eq_none, checkHead_parsed]
  rw [← hcheck]
  simp only [skipHead, parseHead_head hin]
  rw [if_neg hz, if_neg hbrk, if_neg hres]
  cases whenStrict o (checkHeadDeterministic (h.parsed m) s.pos) with
  | none => simp
  | some e => simp

theorem skipBody_int (hm : m = .uint ∨ m = .nint) :
    skipBody o inp stack (h.parsed m) s = .ok (.done stack) (s.advance (h.bytes m).length) := by
  rw [h.bytes_length]
  rcases hm with rfl | rfl <;> rfl

theorem skipBody_simple_eq : skipBody o inp stack (h.parsed .simple) s =
    if h.ai = 24 ∧ h.value < 32 then .error (simpleError s.pos) s
    else
      match whenStrict o
        (if 25 ≤ h.ai then checkPreferredFloat (floatOf h.ai h.value) h.ai h.value s.pos
        else none) with
      | some e => .error e s
      | none => .ok (.done stack) (s.advance (1 + h.width.size)) := rfl

theorem skipBody_simple :
    skipBody o inp stack (h.parsed .simple) s = .ok step s₁ ↔
      (h.ai = 24 → 32 ≤ h.value) ∧
        (o.requireDeterministic = true → 25 ≤ h.ai → PreferredFloat h.ai h.value) ∧
        step = .done stack ∧ s₁ = s.advance (h.bytes .simple).length := by
  have hfloat :
    whenStrict o (if 25 ≤ h.ai then checkPreferredFloat (floatOf h.ai h.value) h.ai h.value s.pos
      else none) = none ↔
        (o.requireDeterministic = true → 25 ≤ h.ai → PreferredFloat h.ai h.value) := by
    rw [whenStrict_eq_none]
    split
    · simp [*, checkPreferredFloat_eq_none]
    · simp [*]
  rw [skipBody_simple_eq, h.bytes_length, ← hfloat]
  by_cases hsmall : h.ai = 24 ∧ h.value < 32
  · rw [if_pos hsmall]
    simp only [reduceCtorEq, false_iff, not_and]
    omega
  · rw [if_neg hsmall]
    have hsmall' : h.ai = 24 → 32 ≤ h.value := by omega
    cases whenStrict o
      (if 25 ≤ h.ai then checkPreferredFloat (floatOf h.ai h.value) h.ai h.value s.pos
      else none) with
    | some e => simp
    | none =>
      simp only [EStateM.Result.ok.injEq, true_and, eq_comm (a := step), eq_comm (a := s₁),
        and_iff_right hsmall']

section

variable {p : ParsedHead} {t : State}

/-- A float that is passed. -/
theorem expectReal_of_none (hrun : itemHead o inp (str "float") s = .ok p t)
    (hmt : p.mt = .simple) (hai : 25 ≤ p.ai ∧ p.ai ≤ 27)
    (hcheck : whenStrict o (checkPreferredFloat (floatOf p.ai p.value) p.ai p.value t.pos) = none) :
    expectReal o inp s = .ok (floatOf p.ai p.value) (t.advance p.length) := by
  have huint : ¬ p.mt = .uint := hmt ▸ Major.noConfusion
  have hnint : ¬ p.mt = .nint := hmt ▸ Major.noConfusion
  unfold expectReal
  rw [Run.bind_of_ok hrun, if_neg huint, if_neg hnint, if_pos ⟨hmt, hai⟩,
    Run.bind_of_ok (Run.get_apply t)]
  simp only [hcheck]
  rfl

/-- A float whose form is refused. -/
theorem expectReal_of_some {e : Error} (hrun : itemHead o inp (str "float") s = .ok p t)
    (hmt : p.mt = .simple) (hai : 25 ≤ p.ai ∧ p.ai ≤ 27)
    (hcheck : whenStrict o (checkPreferredFloat (floatOf p.ai p.value) p.ai p.value t.pos) =
      some e) :
    expectReal o inp s = .error e t := by
  have huint : ¬ p.mt = .uint := hmt ▸ Major.noConfusion
  have hnint : ¬ p.mt = .nint := hmt ▸ Major.noConfusion
  unfold expectReal
  rw [Run.bind_of_ok hrun, if_neg huint, if_neg hnint, if_pos ⟨hmt, hai⟩,
    Run.bind_of_ok (Run.get_apply t)]
  simp only [hcheck]
  rfl

end

theorem skipBody_string_eq {t : Bool} {p : ParsedHead} (hp : p.mt = strMajor t) :
    skipBody o inp stack p s =
    match readString o inp p (strMajor t) s with
    | .error e s => .error e s
    | .ok r s' =>
      match (if o.validateUtf8 ∧ strMajor t = .text then validateUtf8 r.1 else none) with
      | some bad =>
        .error ((error .invalidUtf8 (if r.2 then s.pos else s.pos + p.length + bad)).withLength 1)
          s'
      | none => .ok (.done stack) s' := by
  obtain ⟨mt, ai, value, indefinite, length, reserved, isBreak⟩ := p
  obtain rfl : mt = strMajor t := hp
  cases t <;> rfl

theorem skipBody_string {t : Bool} {p : ParsedHead} (hp : p.mt = strMajor t) :
    skipBody o inp stack p s = .ok step s₁ ↔
      ∃ out, readString o inp p (strMajor t) s = .ok out s₁ ∧
        (o.validateUtf8 = true → t = true → Utf8.Valid out.1) ∧ step = .done stack := by
  rw [skipBody_string_eq hp]
  cases readString o inp p (strMajor t) s with
  | error e s' => simp
  | ok out s' =>
    simp only [EStateM.Result.ok.injEq, ← utf8_check]
    cases hutf : (if o.validateUtf8 ∧ strMajor t = .text then validateUtf8 out.1 else none) with
    | some bad =>
      simp only [reduceCtorEq, false_iff, not_exists]
      rintro out' ⟨⟨rfl, -⟩, hnone, -⟩
      rw [hutf] at hnone
      cases hnone
    | none =>
      simp only [EStateM.Result.ok.injEq]
      constructor
      · rintro ⟨rfl, rfl⟩
        exact ⟨out, ⟨rfl, rfl⟩, hutf, rfl⟩
      · rintro ⟨out', ⟨rfl, rfl⟩, -, rfl⟩
        exact ⟨rfl, rfl⟩

theorem skipBody_tag (hin : inp.drop s.pos = h.bytes .tag ++ r) :
    skipBody o inp stack (h.parsed .tag) s = .ok step s₁ ↔
      r ≠ [] ∧ r.head? ≠ some breakByte ∧ step = .again stack ∧
        s₁ = s.advance (h.bytes .tag).length := by
  have hdrop := drop_add hin
  have htotal := length_drop hin
  have hlen := h.bytes_length .tag
  rw [List.length_append] at htotal
  have hbody : skipBody o inp stack (h.parsed .tag) s =
      if inp.length ≤ s.pos + (1 + h.width.size) then
        .error ((error .truncated (s.pos + (1 + h.width.size))).withExpected (str "tagged item"))
          (s.advance (1 + h.width.size))
      else if (inp.drop (s.pos + (1 + h.width.size))).head? = some breakByte then
        .error (((error .malformedItem (s.pos + (1 + h.width.size))).withDetail
          (str "tag with no content")).withLength 1) (s.advance (1 + h.width.size))
      else .ok (.again stack) (s.advance (1 + h.width.size)) := rfl
  rw [hbody, ← hlen, hdrop]
  have hend : inp.length ≤ s.pos + (h.bytes .tag).length ↔ r = [] := by
    rw [← List.length_eq_zero_iff]
    omega
  by_cases hr : r = []
  · simp [hend.2 hr, hr]
  · rw [if_neg (mt hend.1 hr)]
    by_cases hbrk : r.head? = some breakByte
    · simp [hbrk]
    · simp only [hbrk, if_false, EStateM.Result.ok.injEq, ne_eq, hr, not_false_eq_true, true_and,
        eq_comm (a := step), eq_comm (a := s₁)]

theorem skipBody_container {isMap : Bool} {p : ParsedHead} (hp : p.mt = containerMajor isMap) :
    skipBody o inp stack p s =
      if o.maxDepth ≤ s.depth then .error (depthError o s.pos) s
      else if p.indefinite then
        .ok (.again ({ isMap, remaining := none } :: stack))
        { s with pos := s.pos + p.length, depth := s.depth + 1 }
      else if p.value = 0 then .ok (.done stack) (s.advance p.length)
      else
        .ok (.again
          ({ isMap, remaining := some (if isMap then p.value * 2 % 2 ^ 64 else p.value) } :: stack))
          { s with pos := s.pos + p.length, depth := s.depth + 1 } := by
  obtain ⟨mt, ai, value, indefinite, length, reserved, isBreak⟩ := p
  obtain rfl : mt = containerMajor isMap := hp
  cases isMap <;> rfl

end Head

section Sound

variable {stack : List Level} {s s₁ : State} {step : Step} {r : Bytes}

private theorem headStep_head {m : Major} {h : Head} (hin : inp.drop s.pos = h.bytes m ++ r)
    (hrun : skipHead o inp stack s = .ok step s₁) : HeadStep o inp stack s step s₁ := by
  obtain ⟨hdet, hbody⟩ := (skipHead_head hin).1 hrun
  have string : ∀ t : Bool, m = strMajor t → HeadStep o inp stack s step s₁ := by
    rintro t rfl
    obtain ⟨out, hread, hutf, rfl⟩ := (skipBody_string rfl).1 hbody
    obtain ⟨hle, rfl, rfl⟩ := (readString_definite hin).1 hread
    have hx : Accepts o s.depth (.str t h (r.take h.value)) := by
      refine .str ⟨?_, fun hv => ?_, fun hs => hdet hs (strMajor_ne_simple t)⟩
      · simp only [LaxNode, List.length_take]
        omega
      · cases t with
        | false => trivial
        | true => exact hutf hv rfl
    have hbytes : (Item.str t h (r.take h.value)).bytes.length =
      (h.bytes (strMajor t)).length + h.value := by
      rw [Item.bytes, List.length_append, List.length_take, Nat.min_eq_left hle]
    rw [← hbytes]
    refine .flat (r := r.drop h.value) hx trivial ?_
    rw [hin, Item.bytes, List.append_assoc, List.take_append_drop]
  have int : m = .uint ∨ m = .nint → HeadStep o inp stack s step s₁ := by
    intro hm
    rw [skipBody_int hm] at hbody
    cases hbody
    have hne : m ≠ .simple := by rcases hm with rfl | rfl <;> decide
    refine .flat (x := .leaf m h)
      (.leaf ⟨⟨by tauto, fun hs => absurd hs hne⟩, fun _ => trivial, fun hs => ?_⟩) trivial hin
    exact ⟨hdet hs, fun hs => absurd hs hne⟩
  have container : ∀ isMap : Bool, m = containerMajor isMap → HeadStep o inp stack s step s₁ := by
    rintro isMap rfl
    have hind : ¬ (h.parsed (containerMajor isMap)).indefinite = true := Bool.false_ne_true
    have hlen : (h.parsed (containerMajor isMap)).length =
      (h.bytes (containerMajor isMap)).length := by
      rw [h.bytes_length]
      rfl
    have hval : (h.parsed (containerMajor isMap)).value = h.value := rfl
    rw [skipBody_container rfl, if_neg hind, hlen, hval] at hbody
    by_cases hd : o.maxDepth ≤ s.depth
    · rw [if_pos hd] at hbody
      cases hbody
    rw [if_neg hd] at hbody
    rw [not_le] at hd
    by_cases hzero : h.value = 0
    · rw [if_pos hzero] at hbody
      cases hbody
      have hbytes : (Item.container isMap (some h) []).bytes = h.bytes (containerMajor isMap) := by
        simp [Item.bytes, Item.bytesList]
      rw [← hbytes]
      refine .flat (r := r) (.container ⟨?_, fun _ => trivial, fun hs => ?_⟩ hd (by simp)) trivial
        (by rw [hbytes, hin])
      · simp [LaxNode, skipCount, hzero]
      · exact ⟨hdet hs (containerMajor_ne_simple isMap), fun _ => trivial⟩
    · rw [if_neg hzero] at hbody
      cases hbody
      exact .openDefinite hin hd hzero fun hs => hdet hs (containerMajor_ne_simple isMap)
  cases m with
  | uint => exact int (.inl rfl)
  | nint => exact int (.inr rfl)
  | bytes => exact string false rfl
  | text => exact string true rfl
  | array => exact container false rfl
  | map => exact container true rfl
  | tag =>
    obtain ⟨hr, hbrk, rfl, rfl⟩ := (skipBody_tag hin).1 hbody
    exact .tag hin hr hbrk fun hs => hdet hs (by decide)
  | simple =>
    obtain ⟨hsmall, hfloat, rfl, rfl⟩ := skipBody_simple.1 hbody
    refine .flat (x := .leaf .simple h)
      (.leaf ⟨⟨by tauto, fun _ => hsmall⟩, fun _ => trivial, fun hs => ?_⟩) trivial hin
    exact ⟨fun hs => absurd rfl hs, fun _ => hfloat hs⟩

/-- A successful round has read a break, a flat item, a tag or the opening of a container. -/
theorem skipHead_sound (hrun : skipHead o inp stack s = .ok step s₁) :
    HeadStep o inp stack s step s₁ := by
  have hview := parseHead_view inp s.pos
  generalize hp : parseHead inp s.pos = p at hview
  generalize hin : inp.drop s.pos = bs at hview
  cases hview with
  | truncated hz =>
    simp only [skipHead, hp, hz, if_true] at hrun
    cases hrun
  | brk r =>
    simp only [skipHead, hp, one_ne_zero, if_false, if_true] at hrun
    cases stack with
    | nil => cases hrun
    | cons top rest =>
      simp only at hrun
      by_cases hrem : top.remaining.isSome
      · rw [if_pos hrem] at hrun
        cases hrun
      rw [if_neg hrem] at hrun
      by_cases hkey : top.isMap ∧ ¬ top.keyNext
      · rw [if_pos hkey] at hrun
        cases hrun
      rw [if_neg hkey] at hrun
      cases hrun
      exact .brk rfl (by simpa using hrem) (by simpa using hkey) hin
  | reserved m hlo hhi r =>
    simp only [skipHead, hp, one_ne_zero, Bool.false_eq_true, if_false, if_true] at hrun
    cases hrun
  | reservedIndefinite hm r =>
    simp only [skipHead, hp, one_ne_zero, Bool.false_eq_true, if_false, if_true] at hrun
    cases hrun
  | @indefinite m hm r =>
    simp only [skipHead, hp, one_ne_zero, Bool.false_eq_true, if_false] at hrun
    split at hrun
    · cases hrun
    rename_i hcheck
    rw [whenStrict_eq_none] at hcheck
    have hdet : o.requireDeterministic = false := by
      cases hdet : o.requireDeterministic with
      | false => rfl
      | true =>
        have := hcheck hdet
        simp [checkHeadDeterministic] at this
    have string : ∀ t : Bool, m = strMajor t → HeadStep o inp stack s step s₁ := by
      rintro t rfl
      obtain ⟨out, hread, -, rfl⟩ := (skipBody_string rfl).1 hrun
      obtain ⟨-, cs, r', hcs, hin', -, rfl⟩ := (readString_indefinite rfl rfl hin).1 hread
      obtain ⟨hlax, hutf⟩ := chunkOk_iff.1 hcs
      exact .flat (.chunked ⟨hlax, hutf, fun hs => by rw [hdet] at hs; cases hs⟩) trivial hin'
    have container : ∀ isMap : Bool, m = containerMajor isMap → HeadStep o inp stack s step s₁ := by
      rintro isMap rfl
      rw [skipBody_container rfl] at hrun
      by_cases hd : o.maxDepth ≤ s.depth
      · rw [if_pos hd] at hrun
        cases hrun
      rw [if_neg hd, if_pos rfl] at hrun
      cases hrun
      exact .openIndefinite hin (not_le.1 hd) hdet
    rcases hm with rfl | rfl | rfl | rfl
    · exact string false rfl
    · exact string true rfl
    · exact container false rfl
    · exact container true rfl
  | head m h r => exact headStep_head hin hrun

end Sound

/-! ### Levels -/

/-- The bytes of the previous key of a map. -/
def Level.prevKey (inp : Bytes) (top : Level) : Option Bytes :=
  if top.havePrev then some (subspan inp top.prevStart top.prevEnd) else none

/-- The reader checks the order of the next item of this level, as a key. -/
def Level.Keyed (o : Options) (top : Level) : Prop :=
  o.requireDeterministic = true ∧ top.isMap = true ∧ top.keyNext = true

/-- The check of an item that began at `p` and ended at `q`. -/
def Level.pass (o : Options) (inp : Bytes) (top : Level) (p q : Nat) : Except Error Level :=
  match (top.mark o p).checkKey o inp q with
  | .error e => .error e
  | .ok top => .ok top.flip

theorem Level.mark_mark (top : Level) (p q : Nat) : (top.mark o p).mark o q = top.mark o p := by
  unfold Level.mark
  split
  · rw [if_neg (by simp)]
  · rfl

theorem markKey_markKey (stack : List Level) (p q : Nat) :
    markKey o (markKey o stack p) q = markKey o stack p := by
  cases stack with
  | nil => rfl
  | cons top rest => rw [markKey, markKey, Level.mark_mark]

/-- The level after an item passed the check. -/
structure Passed (o : Options) (inp : Bytes) (top : Level) (p q : Nat) (top' : Level) : Prop where
  isMap : top'.isMap = top.isMap
  remaining : top'.remaining = top.remaining
  inKey : top'.inKey = false
  keyNext : top'.keyNext = if top.isMap then !top.keyNext else top.keyNext
  prevKey : top'.prevKey inp = if top.isMap ∧ top.keyNext ∧
    o.requireDeterministic then some (subspan inp p q) else top.prevKey inp

theorem Level.pass_unkeyed {top : Level} {p q : Nat} (h : ¬ top.Keyed o) :
    top.pass o inp p q = .ok top.flip := by
  have h' : ¬ (o.requireDeterministic = true ∧ top.isMap = true ∧ top.keyNext = true) := h
  rw [Level.pass, Level.mark, if_neg (by tauto), Level.checkKey, if_neg h']

theorem Level.pass_keyed {top : Level} {p q : Nat} (hkey : top.inKey = false) (h : top.Keyed o) :
    top.pass o inp p q =
      match (if top.havePrev then keyOrderError (subspan inp p q)
        (subspan inp top.prevStart top.prevEnd) p else none) with
      | some e => .error e
      | none => .ok { top with keyStart := p, keyNext := false, prevStart := p, prevEnd := q, havePrev := true } := by
  obtain ⟨hdet, hmap, hnext⟩ := h
  obtain ⟨isMap, remaining, keyNext, keyStart, prevStart, prevEnd, inKey, havePrev⟩ := top
  simp only at hkey hmap hnext
  subst hkey hmap hnext
  rw [Level.pass, Level.mark, if_pos ⟨hdet, rfl, rfl, by simp⟩, Level.checkKey,
    if_pos ⟨hdet, rfl, rfl⟩]
  simp only
  cases (if havePrev = true then keyOrderError (subspan inp p q) (subspan inp prevStart prevEnd) p
    else none) <;> rfl

theorem Level.pass_iff {top : Level} {p q : Nat} (hkey : top.inKey = false) :
    (∃ top', top.pass o inp p q = .ok top') ↔
      (top.Keyed o → ∀ k ∈ top.prevKey inp, k < subspan inp p q) := by
  by_cases h : top.Keyed o
  · rw [Level.pass_keyed hkey h]
    simp only [h, true_imp_iff, Level.prevKey]
    cases top.havePrev with
    | false => simp
    | true =>
      simp only [if_true, Option.mem_some_iff, forall_eq']
      rw [← keyOrderError_eq_none _ _ p]
      cases keyOrderError (subspan inp p q) (subspan inp top.prevStart top.prevEnd) p <;> simp
  · rw [Level.pass_unkeyed h]
    simp [h]

theorem Level.pass_ok {top top' : Level} {p q : Nat} (hkey : top.inKey = false) (h : top.pass o inp p q = .ok top') :
    Passed o inp top p q top' := by
  by_cases hk : top.Keyed o
  · rw [Level.pass_keyed hkey hk] at h
    obtain ⟨hdet, hmap, hnext⟩ := hk
    split at h
    · cases h
    · cases h
      exact ⟨rfl, rfl, hkey, by simp [hmap, hnext], by simp [Level.prevKey, hmap, hnext, hdet]⟩
  · rw [Level.pass_unkeyed hk] at h
    cases h
    have hne : ¬ (top.isMap = true ∧ top.keyNext = true ∧ o.requireDeterministic = true) := by
      unfold Keyed at hk
      tauto
    rw [Level.flip]
    split
    · exact ⟨rfl, rfl, hkey, by simp [*], by rw [if_neg hne]; rfl⟩
    · exact ⟨rfl, rfl, hkey, by simp [*], by rw [if_neg hne]⟩

theorem itemDone_cons {top : Level} {rest : List Level} {s : State} {p : Nat} :
    itemDone o inp (top.mark o p :: rest) s =
      match top.pass o inp p s.pos with
      | .error e => .error e s
      | .ok top =>
        match top.count with
        | none => itemDone o inp rest { s with depth := s.depth - 1 }
        | some top => .ok (top :: rest) s := by
  simp only [itemDone, Level.pass]
  cases (top.mark o p).checkKey o inp s.pos <;> rfl

/-- The items a counter still waits for. -/
def itemsLeft (r : Nat) : Nat := if r = 0 then 2 ^ 64 else r

/-- From `s`, before an item of the level `top`, the items `xs` follow and complete it, up to
`s₁`. -/
structure Fills (o : Options) (inp : Bytes) (top : Level) (s : State) (xs : List Item)
    (s₁ : State) : Prop where
  accepts : ∀ x ∈ xs, Accepts o s.depth x
  bytes : ∃ r, inp.drop s.pos = Item.bytesList xs ++
    ((if top.remaining.isSome then [] else [breakByte]) ++ r)
  state : s₁ = { s with
    pos := s.pos + (Item.bytesList xs).length + (if top.remaining.isSome then 0 else 1), depth :=
      s.depth - 1 }
  count : ∀ r ∈ top.remaining, xs.length = itemsLeft r
  parity : top.remaining = none → top.isMap = true → (xs.length % 2 = 0 ↔ top.keyNext = true)
  keys : o.requireDeterministic = true → top.isMap = true →
    KeysAscend top.keyNext (top.prevKey inp) xs

theorem subspan_eq {p : Nat} {x r : Bytes} (h : inp.drop p = x ++ r) :
    subspan inp p (p + x.length) = x := by
  rw [subspan, h, Nat.add_sub_cancel_left, List.take_left]

section

variable {top top' : Level} {s s₁ : State} {x : Item} {xs : List Item} {r : Bytes}

theorem bytesList_cons_iff {p : Nat} {post : Bytes} (hin : inp.drop p = x.bytes ++ r) :
    (∃ r', inp.drop p = Item.bytesList (x :: xs) ++ (post ++ r')) ↔
      ∃ r', inp.drop (p + x.bytes.length) = Item.bytesList xs ++ (post ++ r') := by
  refine exists_congr fun r' => ?_
  rw [drop_add hin, hin, Item.bytesList, List.append_assoc, List.append_cancel_left_eq]

theorem pos_bytesList_cons (p : Nat) :
    p + (Item.bytesList (x :: xs)).length = p + x.bytes.length + (Item.bytesList xs).length := by
  rw [Item.bytesList, List.length_append, Nat.add_assoc]

/-- Keys ascend from before an item exactly if they ascend from where its check leaves the level. -/
theorem keysAscend_cons_iff
    (xs : List Item) (hkey : top.inKey = false) (hin : inp.drop s.pos = x.bytes ++ r)
    (hpass : top.pass o inp s.pos (s.pos + x.bytes.length) = .ok top') :
    (o.requireDeterministic = true → top.isMap = true →
      KeysAscend top.keyNext (top.prevKey inp) (x :: xs)) ↔
      (o.requireDeterministic = true → top.isMap = true →
        KeysAscend top'.keyNext (top'.prevKey inp) xs) := by
  have hp := Level.pass_ok hkey hpass
  have hchk := (Level.pass_iff hkey).1 ⟨top', hpass⟩
  have hprev := hp.prevKey
  rw [subspan_eq hin] at hchk hprev
  refine forall_congr' fun hdet => forall_congr' fun hmap => ?_
  rw [hp.keyNext, hprev, if_pos hmap]
  cases hnext : top.keyNext with
  | true =>
    rw [if_pos ⟨hmap, rfl, hdet⟩, KeysAscend]
    exact and_iff_right (hchk ⟨hdet, hmap, hnext⟩)
  | false =>
    rw [if_neg (by simp), KeysAscend]
    rfl

theorem itemsLeft_step {n m : Nat} (hn : n < 2 ^ 64) (hm : m = (n + (2 ^ 64 - 1)) % 2 ^ 64) :
    itemsLeft n = if m = 0 then 1 else itemsLeft m + 1 := by
  unfold itemsLeft
  split_ifs <;> omega

variable (hin : inp.drop s.pos = x.bytes ++ r)
  (hkeys : (o.requireDeterministic = true → top.isMap = true →
    KeysAscend top.keyNext (top.prevKey inp) (x :: xs)) ↔
    (o.requireDeterministic = true → top.isMap = true →
      KeysAscend top'.keyNext (top'.prevKey inp) xs))

include hin hkeys

/-- An item of a level that is open goes on with the level. -/
theorem Passed.fills_open
    {q : Nat} (hp : Passed o inp top s.pos q top') (hcount : top.remaining = none) :
    Fills o inp top s (x :: xs) s₁ ↔ Accepts o s.depth x ∧
      Fills o inp top' (s.advance x.bytes.length) xs s₁ := by
  constructor
  · intro h
    refine ⟨h.accepts x List.mem_cons_self, fun y hy => h.accepts y (List.mem_cons_of_mem _ hy), ?_,
      ?_, ?_, ?_, ?_⟩
    · rw [hp.remaining]
      exact (bytesList_cons_iff hin).1 h.bytes
    · rw [h.state, pos_bytesList_cons, hp.remaining]
      rfl
    · simp [hp.remaining, hcount]
    · intro _ hmap
      have hparity := h.parity hcount (hp.isMap ▸ hmap)
      rw [hp.keyNext, if_pos (hp.isMap ▸ hmap), Bool.not_eq_true', ← Bool.not_eq_true, ← hparity,
        List.length_cons]
      omega
    · rw [hp.isMap]
      exact hkeys.1 h.keys
  · rintro ⟨hx, h⟩
    have hbytes := h.bytes
    have hstate := h.state
    have hrest := h.keys
    rw [hp.remaining] at hbytes hstate
    rw [hp.isMap] at hrest
    refine ⟨List.forall_mem_cons.2 ⟨hx, h.accepts⟩, (bytesList_cons_iff hin).2 hbytes, ?_, ?_, ?_,
      hkeys.2 hrest⟩
    · rw [hstate, pos_bytesList_cons]
      rfl
    · simp [hcount]
    · intro _ hmap
      have hparity := h.parity (hp.remaining.trans hcount) (hp.isMap.trans hmap)
      rw [hp.keyNext, if_pos hmap, Bool.not_eq_true', ← Bool.not_eq_true] at hparity
      rw [← not_iff_not, ← hparity, List.length_cons]
      omega

/-- The last item of a counted level completes it. -/
theorem fills_last {n : Nat} (hcount : top.remaining = some n) (hlast : itemsLeft n = 1) :
    Fills o inp top s (x :: xs) s₁ ↔
      Accepts o s.depth x ∧ xs = [] ∧
        s₁ = { s.advance x.bytes.length with depth := s.depth - 1 } := by
  constructor
  · intro h
    have hlength := h.count n hcount
    rw [hlast, List.length_cons] at hlength
    obtain rfl : xs = [] := List.length_eq_zero_iff.1 (by omega)
    refine ⟨h.accepts x List.mem_cons_self, rfl, ?_⟩
    rw [h.state, pos_bytesList_cons, hcount]
    simp [Item.bytesList, State.advance]
  · rintro ⟨hx, rfl, rfl⟩
    refine ⟨by simpa using hx, (bytesList_cons_iff hin).2
      ⟨r, by simp [drop_add hin, hcount, Item.bytesList]⟩, ?_, ?_,
      by simp [hcount], ?_⟩
    · rw [pos_bytesList_cons, hcount]
      simp [Item.bytesList, State.advance]
    · simp [hcount, hlast]
    · exact hkeys.2 fun _ _ => by cases top'.keyNext <;> trivial

/-- Any other item of a counted level leaves one item fewer to come. -/
theorem Passed.fills_more {q n m : Nat} (hp : Passed o inp top s.pos q top')
    (hcount : top.remaining = some n) (hleft : itemsLeft n = itemsLeft m + 1) :
    Fills o inp top s (x :: xs) s₁ ↔
      Accepts o s.depth x ∧ Fills o inp { top' with remaining := some m } (s.advance x.bytes.length)
        xs s₁ := by
  constructor
  · intro h
    have hlength := h.count n hcount
    rw [hleft, List.length_cons] at hlength
    have hrest := hkeys.1 h.keys
    rw [← hp.isMap] at hrest
    refine ⟨h.accepts x List.mem_cons_self, fun y hy => h.accepts y (List.mem_cons_of_mem _ hy), ?_,
      ?_, ?_, ?_, hrest⟩
    · have hbytes := (bytesList_cons_iff hin).1 h.bytes
      rwa [hcount] at hbytes
    · rw [h.state, pos_bytesList_cons, hcount]
      rfl
    · simpa using hlength
    · intro hnone
      cases hnone
  · rintro ⟨hx, h⟩
    have hlength := h.count _ rfl
    have hrest := h.keys
    simp only at hrest
    rw [hp.isMap] at hrest
    refine ⟨List.forall_mem_cons.2 ⟨hx, h.accepts⟩,
      (bytesList_cons_iff hin).2 (by have := h.bytes; rwa [hcount]), ?_, ?_, ?_,
      hkeys.2 hrest⟩
    · rw [h.state, pos_bytesList_cons, hcount]
      rfl
    · intro n' hn'
      obtain rfl : n = n' := by simpa [hcount] using hn'
      rw [hleft, List.length_cons, hlength]
    · intro hnone
      rw [hcount] at hnone
      cases hnone

omit hin hkeys

/-- Filling a level with a first item is passing that item and filling the level that is left. -/
theorem fills_cons (hkey : top.inKey = false) (hrem : ∀ r ∈ top.remaining, r < 2 ^ 64)
    (hin : inp.drop s.pos = x.bytes ++ r)
    (hpass : top.pass o inp s.pos (s.pos + x.bytes.length) = .ok top') :
    Fills o inp top s (x :: xs) s₁ ↔ Accepts o s.depth x ∧
      match top'.count with
      | none => xs = [] ∧ s₁ = { s.advance x.bytes.length with depth := s.depth - 1 }
      | some top'' => Fills o inp top'' (s.advance x.bytes.length) xs s₁ := by
  have hp := Level.pass_ok hkey hpass
  have hkeys := keysAscend_cons_iff xs hkey hin hpass
  cases hcount : top.remaining with
  | none =>
    have hc : top'.count = some top' := by rw [Level.count, hp.remaining, hcount]
    rw [hc]
    exact hp.fills_open hin hkeys hcount
  | some n =>
    obtain ⟨m, hm⟩ : ∃ m, m = (n + (2 ^ 64 - 1)) % 2 ^ 64 := ⟨_, rfl⟩
    have hc : top'.count = if m = 0 then none else some { top' with remaining := some m } := by
      rw [Level.count, hp.remaining, hcount, hm]
    have hleft := itemsLeft_step (hrem n hcount) hm
    by_cases hlast : m = 0
    · rw [if_pos hlast] at hc hleft
      rw [hc]
      exact fills_last hin hkeys hcount hleft
    · rw [if_neg hlast] at hc hleft
      rw [hc]
      exact hp.fills_more hin hkeys hcount hleft

end

/-! ### Runs -/

/-- The rest of a run when an item has just ended. -/
def afterItem (o : Options) (inp : Bytes) (fuel : Nat) (stack : List Level) : M Unit := fun s =>
  match itemDone o inp stack s with
  | .error e s => .error e s
  | .ok [] s => .ok () s
  | .ok (top :: stack) s => skipLoop o inp fuel (top :: stack) s

/-- The rest of a run after one round. -/
def afterStep (o : Options) (inp : Bytes) (fuel : Nat) : Step → M Unit
  | .again stack => skipLoop o inp fuel stack
  | .done stack => afterItem o inp fuel stack

theorem skipLoop_succ (fuel : Nat) (stack : List Level) (s : State) :
    skipLoop o inp (fuel + 1) stack s =
      if inp.length ≤ s.pos then .error (error .truncated s.pos) s
      else
        match skipHead o inp (markKey o stack s.pos) s with
        | .error e s => .error e s
        | .ok step s => afterStep o inp fuel step s := by
  simp only [skipLoop]
  cases skipHead o inp (markKey o stack s.pos) s with
  | error e s => rfl
  | ok step s => cases step <;> rfl

theorem skipLoop_step {fuel : Nat} {stack : List Level} {s s₁ : State} {step : Step} {b : UInt8}
    {r : Bytes} (hin : inp.drop s.pos = b :: r)
    (hstep : skipHead o inp (markKey o stack s.pos) s = .ok step s₁) :
    skipLoop o inp (fuel + 1) stack s = afterStep o inp fuel step s₁ := by
  have hlen := length_drop hin
  rw [List.length_cons] at hlen
  rw [skipLoop_succ, if_neg (by omega), hstep]

theorem skipLoop_mono {fuel fuel' : Nat} {stack : List Level} {s s' : State}
    (h : skipLoop o inp fuel stack s = .ok () s') (hle : fuel ≤ fuel') :
    skipLoop o inp fuel' stack s = .ok () s' := by
  induction fuel generalizing fuel' stack s with
  | zero => cases h
  | succ fuel ih =>
    obtain ⟨fuel', rfl⟩ : ∃ f, fuel' = f + 1 := ⟨fuel' - 1, by omega⟩
    rw [skipLoop_succ] at h ⊢
    split at h
    · cases h
    rw [if_neg (by assumption)]
    cases hstep : skipHead o inp (markKey o stack s.pos) s with
    | error e s₁ =>
      rw [hstep] at h
      cases h
    | ok step s₁ =>
      rw [hstep] at h
      cases step with
      | again stack => exact ih h (by omega)
      | done stack =>
        simp only [afterStep, afterItem] at h ⊢
        cases hdone : itemDone o inp stack s₁ with
        | error e s₂ =>
          rw [hdone] at h
          cases h
        | ok stack s₂ =>
          rw [hdone] at h
          cases stack with
          | nil => exact h
          | cons top rest => exact ih h (by omega)

theorem afterItem_mono {fuel fuel' : Nat} {stack : List Level} {s s' : State}
    (h : afterItem o inp fuel stack s = .ok () s') (hle : fuel ≤ fuel') :
    afterItem o inp fuel' stack s = .ok () s' := by
  unfold afterItem at h ⊢
  cases hdone : itemDone o inp stack s with
  | error e s₁ =>
    rw [hdone] at h
    cases h
  | ok stack s₁ =>
    rw [hdone] at h
    cases stack with
    | nil => exact h
    | cons top rest => exact skipLoop_mono h hle

theorem afterItem_nil {fuel : Nat} {s : State} : afterItem o inp fuel [] s = .ok () s := rfl

theorem afterItem_cons {fuel : Nat} {top : Level} {rest : List Level} {s : State} {p : Nat} :
    afterItem o inp fuel (top.mark o p :: rest) s =
      match top.pass o inp p s.pos with
      | .error e => .error e s
      | .ok top =>
        match top.count with
        | none => afterItem o inp fuel rest { s with depth := s.depth - 1 }
        | some top => skipLoop o inp fuel (top :: rest) s := by
  rw [afterItem, itemDone_cons]
  cases top.pass o inp p s.pos with
  | error e => rfl
  | ok top' =>
    simp only
    cases top'.count <;> rfl

/-! ### The loop accepts only items -/

/-- The items that fill a level opened by a definite head are the elements of its container. -/
theorem Fills.definite {isMap : Bool} {h : Head} {s s₁ s₂ : State} {xs : List Item} {r : Bytes}
    (hin : inp.drop s.pos = h.bytes (containerMajor isMap) ++ r) (hd : s.depth < o.maxDepth) (hne : h.value ≠ 0)
    (hdet : o.requireDeterministic = true → h.Shortest)
    (hs₁ : s₁ = { s with pos := s.pos + (h.bytes (containerMajor isMap)).length, depth := s.depth + 1 }) :
    Fills o inp { isMap, remaining := some (if isMap then h.value * 2 % 2 ^ 64 else h.value) } s₁ xs
      s₂ ↔
      Accepts o s.depth (.container isMap (some h) xs) ∧
        (∃ r', inp.drop s.pos = (Item.container isMap (some h) xs).bytes ++ r') ∧
        s₂ = s.advance (Item.container isMap (some h) xs).bytes.length := by
  have hcount : skipCount isMap h.value =
    itemsLeft (if isMap then h.value * 2 % 2 ^ 64 else h.value) := by
    rw [skipCount, itemsLeft, if_neg hne, Nat.mul_comm 2]
    cases isMap <;> simp [hne]
  have hbytes : (Item.container isMap (some h) xs).bytes = h.bytes (containerMajor isMap) ++
    Item.bytesList xs := rfl
  have hstate :
    ({ s₁ with pos := s₁.pos + (Item.bytesList xs).length + 0, depth := s₁.depth - 1 } : State) =
      s.advance (Item.container isMap (some h) xs).bytes.length := by
    rw [hs₁, hbytes, List.length_append, State.advance]
    simp [Nat.add_assoc]
  have hdrop : inp.drop s₁.pos = r := by
    rw [hs₁]
    exact drop_add hin
  constructor
  · intro hf
    refine ⟨.container ⟨?_, fun _ => trivial, fun hs => ⟨hdet hs, fun hm => hf.keys hs hm⟩⟩ hd ?_,
      ?_, ?_⟩
    · simp only [LaxNode]
      rw [hcount]
      exact hf.count _ rfl
    · have := hf.accepts
      rw [hs₁] at this
      exact this
    · obtain ⟨r', hr'⟩ := hf.bytes
      refine ⟨r', ?_⟩
      rw [hdrop] at hr'
      rw [hin, hr', hbytes, List.append_assoc]
      rfl
    · rw [← hstate]
      exact hf.state
  · rintro ⟨hx, ⟨r', hr'⟩, rfl⟩
    cases hx with
    | container hp _ hxs =>
      refine ⟨by rw [hs₁]; exact hxs, ⟨r', ?_⟩, hstate.symm, ?_,
        (fun hnone => absurd hnone (Option.some_ne_none _)), fun hs hm => ?_⟩
      · rw [hbytes, List.append_assoc] at hr'
        rw [hdrop]
        exact List.append_cancel_left (hin.symm.trans hr')
      · intro n hn
        obtain rfl := Option.some.inj hn
        rw [← hcount]
        exact hp.1
      · exact (hp.2.2 hs).2 hm

theorem Fills.indefinite {isMap : Bool} {s s₁ s₂ : State} {xs : List Item} {r : Bytes}
    (hin : inp.drop s.pos = initialByte (containerMajor isMap) 31 :: r) (hd : s.depth < o.maxDepth)
    (hdet : o.requireDeterministic = false)
    (hs₁ : s₁ = { s with pos := s.pos + 1, depth := s.depth + 1 }) :
    Fills o inp { isMap, remaining := none } s₁ xs s₂ ↔
      Accepts o s.depth (.container isMap none xs) ∧
        (∃ r', inp.drop s.pos = (Item.container isMap none xs).bytes ++ r') ∧
        s₂ = s.advance (Item.container isMap none xs).bytes.length := by
  have hbytes : (Item.container isMap none xs).bytes =
      initialByte (containerMajor isMap) 31 :: (Item.bytesList xs ++ [breakByte]) := rfl
  have hstate :
    ({ s₁ with pos := s₁.pos + (Item.bytesList xs).length + 1, depth := s₁.depth - 1 } : State) =
      s.advance (Item.container isMap none xs).bytes.length := by
    rw [hs₁, hbytes, List.length_cons, List.length_append, State.advance]
    simp only [List.length_singleton, Nat.add_sub_cancel]
    congr 1
    omega
  have hdrop : inp.drop s₁.pos = r := by
    rw [hs₁]
    exact drop_add (a := [initialByte (containerMajor isMap) 31]) hin
  constructor
  · intro hf
    refine ⟨.container ⟨?_, fun _ => trivial, fun hs => ?_⟩ hd ?_, ?_, ?_⟩
    · intro hm
      exact (hf.parity rfl hm).2 rfl
    · rw [hdet] at hs
      cases hs
    · have := hf.accepts
      rw [hs₁] at this
      exact this
    · obtain ⟨r', hr'⟩ := hf.bytes
      refine ⟨r', ?_⟩
      rw [hdrop] at hr'
      rw [hin, hr', hbytes]
      simp
    · rw [← hstate]
      exact hf.state
  · rintro ⟨hx, ⟨r', hr'⟩, rfl⟩
    cases hx with
    | container hp _ hxs =>
      refine ⟨by rw [hs₁]; exact hxs, ⟨r', ?_⟩, hstate.symm,
        (fun n hn => absurd hn.symm (Option.some_ne_none n)), fun _ hm => ?_, fun hs => ?_⟩
      · rw [hbytes, hin, List.cons_append, List.cons.injEq] at hr'
        rw [hdrop, hr'.2]
        simp
      · exact iff_of_true (hp.1 hm) rfl
      · rw [hdet] at hs
        cases hs

/-- A successful run of the loop starts with an item, or with the break that ends its level. -/
def StartsItem (o : Options) (inp : Bytes) (fuel : Nat) (stack : List Level) (s s' : State) :
    Prop :=
  ∃ x r m, Accepts o s.depth x ∧ inp.drop s.pos = x.bytes ++ r ∧ m < fuel ∧
    afterItem o inp m (markKey o stack s.pos) (s.advance x.bytes.length) = .ok () s'

def StartsBreak (o : Options) (inp : Bytes) (fuel : Nat) (stack : List Level) (s s' : State) :
    Prop :=
  ∃ top rest r m, stack = top :: rest ∧ top.remaining = none ∧
    (top.isMap = true → top.keyNext = true) ∧
    inp.drop s.pos = breakByte :: r ∧ m < fuel ∧
    afterItem o inp m rest { s with pos := s.pos + 1, depth := s.depth - 1 } = .ok () s'

/-- A level as the loop leaves it before an item. -/
def Level.Fresh (top : Level) : Prop := top.inKey = false ∧ ∀ r ∈ top.remaining, r < 2 ^ 64

theorem fresh_definite (isMap : Bool) (h : Head) :
    Level.Fresh { isMap, remaining := some (if isMap then h.value * 2 % 2 ^ 64 else h.value) } := by
  refine ⟨rfl, fun c hc => ?_⟩
  obtain rfl := Option.some.inj hc
  have := h.value_lt
  split <;> omega

theorem fresh_indefinite (isMap : Bool) : Level.Fresh { isMap, remaining := none } :=
  ⟨rfl, fun _ hc => nomatch hc⟩

theorem fresh_count {top top' top'' : Level} {p q : Nat} (hp : Passed o inp top p q top')
    (htop : top.Fresh) (hc : top'.count = some top'') : top''.Fresh := by
  unfold Level.count at hc
  split at hc
  · simp only at hc
    split at hc
    · cases hc
    · cases hc
      refine ⟨hp.inKey, fun r hr => ?_⟩
      obtain rfl := Option.some.inj hr
      exact Nat.mod_lt _ (by norm_num)
  · cases hc
    exact ⟨hp.inKey, by rw [hp.remaining]; exact htop.2⟩

/-- A run on a level reads the items that fill it. -/
private theorem level_sound
    {n : Nat} {top : Level} {rest : List Level} {s s' : State} (htop : top.Fresh)
    (hstart : StartsItem o inp n (top :: rest) s s' ∨ StartsBreak o inp n (top :: rest) s s')
    (ih : ∀ m < n, ∀ (top : Level) (s : State), top.Fresh →
      skipLoop o inp m (top :: rest) s = .ok () s' →
      ∃ xs s₁ k, Fills o inp top s xs s₁ ∧ k < m ∧ afterItem o inp k rest s₁ = .ok () s') :
    ∃ xs s₁ m, Fills o inp top s xs s₁ ∧ m < n ∧ afterItem o inp m rest s₁ = .ok () s' := by
  rcases hstart with ⟨x, r, m, hx, hin, hm, hafter⟩ | ⟨top', rest', r, m, heq, hrem, hkey, hin, hm,
    hafter⟩
  · rw [markKey, afterItem_cons, State.advance_pos] at hafter
    cases hpass : top.pass o inp s.pos (s.pos + x.bytes.length) with
    | error e =>
      rw [hpass] at hafter
      cases hafter
    | ok top' =>
      have hfill : ∀ xs s₁, Fills o inp top s (x :: xs) s₁ ↔ _ := fun xs s₁ =>
        fills_cons htop.1 htop.2 hin hpass
      rw [hpass] at hafter
      simp only at hafter
      cases hc : top'.count with
      | none =>
        rw [hc] at hafter
        refine ⟨[x], _, m, (hfill _ _).2 ⟨hx, ?_⟩, hm, hafter⟩
        rw [hc]
        exact ⟨rfl, rfl⟩
      | some top'' =>
        rw [hc] at hafter
        obtain ⟨xs, s₁, k, hf, hk, hrun⟩ :=
          ih m hm top'' _ (fresh_count (Level.pass_ok htop.1 hpass) htop hc) hafter
        refine ⟨x :: xs, s₁, k, (hfill _ _).2 ⟨hx, ?_⟩, by omega, hrun⟩
        rw [hc]
        exact hf
  · cases heq
    refine ⟨[], _, m, ⟨by simp, ⟨r, ?_⟩, ?_, ?_, fun _ hmap => ?_, fun _ _ => ?_⟩, hm, hafter⟩
    · simp [hin, hrem, Item.bytesList]
    · simp [hrem, Item.bytesList]
    · simp [hrem]
    · exact iff_of_true rfl (hkey hmap)
    · cases top.keyNext <;> trivial

theorem skipLoop_sound (n : Nat) :
    (∀ stack s s', skipLoop o inp n stack s = .ok () s' →
      StartsItem o inp n stack s s' ∨ StartsBreak o inp n stack s s') ∧
    (∀ top rest s s', top.Fresh → skipLoop o inp n (top :: rest) s = .ok () s' →
      ∃ xs s₁ m, Fills o inp top s xs s₁ ∧ m < n ∧ afterItem o inp m rest s₁ = .ok () s') := by
  induction n using Nat.strongRecOn with
  | _ n ih =>
    have hitem : ∀ stack s s', skipLoop o inp n stack s = .ok () s' →
        StartsItem o inp n stack s s' ∨ StartsBreak o inp n stack s s' := by
      intro stack s s' hrun
      cases n with
      | zero => cases hrun
      | succ n =>
        rw [skipLoop_succ] at hrun
        split at hrun
        · cases hrun
        cases hstep : skipHead o inp (markKey o stack s.pos) s with
        | error e s₁ =>
          rw [hstep] at hrun
          cases hrun
        | ok step s₁ =>
          rw [hstep] at hrun
          cases skipHead_sound hstep with
          | @brk top rest r hstack hrem hkey hin =>
            refine .inr ?_
            cases stack with
            | nil => cases hstack
            | cons top₀ rest₀ =>
              obtain ⟨rfl, rfl⟩ : top = top₀.mark o s.pos ∧ rest = rest₀ := by
                simp only [markKey, List.cons.injEq] at hstack
                exact ⟨hstack.1.symm, hstack.2.symm⟩
              have hsame : (top₀.mark o s.pos).remaining = top₀.remaining ∧
                (top₀.mark o s.pos).isMap = top₀.isMap ∧
                  (top₀.mark o s.pos).keyNext = top₀.keyNext := by
                unfold Level.mark
                split <;> exact ⟨rfl, rfl, rfl⟩
              rw [hsame.1] at hrem
              rw [hsame.2.1, hsame.2.2] at hkey
              exact ⟨top₀, rest, r, n, rfl, hrem, hkey, hin, by omega, hrun⟩
          | @flat x r hx _ hin => exact .inl ⟨x, r, n, hx, hin, by omega, hrun⟩
          | @openDefinite isMap h r hin hd hne hdet =>
            obtain ⟨xs, s₂, m, hf, hm, hafter⟩ := (ih n (by omega)).2 _ _ _ _ (fresh_definite isMap h) hrun
            obtain ⟨hx, ⟨r', hr'⟩, rfl⟩ := (Fills.definite hin hd hne hdet rfl).1 hf
            exact .inl ⟨_, r', m, hx, hr', by omega, hafter⟩
          | @openIndefinite isMap r hin hd hdet =>
            obtain ⟨xs, s₂, m, hf, hm, hafter⟩ :=
              (ih n (by omega)).2 _ _ _ _ (fresh_indefinite isMap) hrun
            obtain ⟨hx, ⟨r', hr'⟩, rfl⟩ := (Fills.indefinite hin hd hdet rfl).1 hf
            exact .inl ⟨_, r', m, hx, hr', by omega, hafter⟩
          | @tag h r hin hr hbrk hdet =>
            have hdrop := drop_add hin
            rcases (ih n (by omega)).1 _ _ _
              hrun with ⟨x, r', m, hx, hin', hm, hafter⟩ | ⟨_, _, r', _, _, _, _, hin', _⟩
            · rw [State.advance_pos, hdrop] at hin'
              rw [markKey_markKey, State.advance_advance, ← List.length_append] at hafter
              refine .inl ⟨.tag h x, r', m, .tag ⟨trivial, fun _ => trivial, hdet⟩ hx, ?_, by omega,
                hafter⟩
              rw [hin, hin', Item.bytes, List.append_assoc]
            · rw [State.advance_pos, hdrop] at hin'
              rw [hin'] at hbrk
              exact absurd rfl hbrk
    refine ⟨hitem, fun top rest s s' htop hrun => ?_⟩
    exact level_sound htop (hitem _ _ _ hrun) fun m hm top s hfresh hloop =>
      (ih m hm).2 top rest s s' hfresh hloop

/-! ### The loop accepts every item -/

theorem skipHead_flat {stack : List Level} {s : State} {x : Item} {r : Bytes}
    (hx : Accepts o s.depth x) (hflat : x.Flat) (hin : inp.drop s.pos = x.bytes ++ r) :
    skipHead o inp stack s = .ok (.done stack) (s.advance x.bytes.length) := by
  cases hx with
  | @leaf _ m h hp =>
    obtain ⟨⟨hm, hsmall⟩, -, hdet⟩ := hp
    refine (skipHead_head hin).2 ⟨fun hs hne => (hdet hs).1 hne, ?_⟩
    rcases hm with rfl | rfl | rfl
    · exact skipBody_int (.inl rfl)
    · exact skipBody_int (.inr rfl)
    · exact skipBody_simple.2 ⟨hsmall rfl, fun hs => (hdet hs).2 rfl, rfl, rfl⟩
  | @str _ t h payload hp =>
    obtain ⟨hlen, hutf, hdet⟩ := hp
    rw [Item.bytes, List.append_assoc] at hin
    have hval : h.value ≤ (payload ++ r).length := by
      rw [List.length_append, ← (hlen : payload.length = h.value)]
      exact Nat.le_add_right _ _
    have hread := (readString_definite (o := o) hin).2 ⟨hval, rfl, rfl⟩
    rw [List.take_left' hlen] at hread
    refine (skipHead_head hin).2 ⟨fun hs _ => hdet hs, ?_⟩
    refine (skipBody_string rfl).2 ⟨(payload, false), ?_, fun hv ht => ?_, rfl⟩
    · rw [hread, Item.bytes, List.length_append, (hlen : payload.length = h.value)]
    · subst ht
      exact hutf hv
  | @chunked _ t cs hp =>
    obtain ⟨hlax, hutf, hdet⟩ := hp
    have hdet' : o.requireDeterministic = false := by
      cases hs : o.requireDeterministic with
      | false => rfl
      | true => exact (hdet hs).elim
    have hin' := hin
    rw [Item.bytes, List.cons_append] at hin'
    have hparse := parseHead_indefinite (strMajor_ne_simple t) hin'
    have hres : ¬ (strMajor t = .uint ∨ strMajor t = .nint ∨ strMajor t = .tag) := by
      cases t <;> decide
    have hread :=
      (readString_indefinite (o := o) (h := parseHead inp s.pos) (by rw [hparse])
      (by rw [hparse]) hin').2
      ⟨hdet', cs, r, chunkOk_iff.2 ⟨hlax, hutf⟩, hin, rfl, rfl⟩
    have hbody : skipBody o inp stack (parseHead inp s.pos) s = .ok (.done stack)
        (s.advance (Item.chunked t cs).bytes.length) := by
      refine (skipBody_string (by rw [hparse])).2 ⟨_, hread, fun hv ht => ?_, rfl⟩
      subst ht
      exact valid_flatMap_payload (hutf hv)
    have hcheck : whenStrict o (checkHeadDeterministic (parseHead inp s.pos) s.pos) = none := by
      rw [whenStrict, hdet', if_neg Bool.false_ne_true]
    simp only [skipHead, hcheck, hbody]
    rw [hparse]
    simp [hres]
  | @container _ isMap count xs hp hd hxs =>
    cases count with
    | none => exact hflat.elim
    | some h =>
      cases xs with
      | cons x xs => exact hflat.elim
      | nil =>
        obtain ⟨hcount, -, hdet⟩ := hp
        have hbytes : (Item.container isMap (some h) []).bytes =
          h.bytes (containerMajor isMap) := by
          simp [Item.bytes, Item.bytesList]
        have hzero : h.value = 0 := by
          by_contra hne
          simp only [LaxNode, List.length_nil, skipCount, if_neg hne] at hcount
          split at hcount
          · split at hcount <;> omega
          · omega
        rw [hbytes] at hin ⊢
        refine (skipHead_head hin).2 ⟨fun hs _ => (hdet hs).1, ?_⟩
        have hind : ¬ (h.parsed (containerMajor isMap)).indefinite = true := Bool.false_ne_true
        rw [skipBody_container rfl, if_neg (not_le.2 hd), if_neg hind, if_pos (by exact hzero),
          h.bytes_length]
        rfl
  | tag _ _ => exact hflat.elim

theorem skipHead_openDefinite {stack : List Level} {s : State} {isMap : Bool} {h : Head} {r : Bytes}
    (hin : inp.drop s.pos = h.bytes (containerMajor isMap) ++ r)
    (hd : s.depth < o.maxDepth) (hne : h.value ≠ 0)
    (hdet : o.requireDeterministic = true → h.Shortest) :
    skipHead o inp stack s =
      .ok (.again
        ({ isMap, remaining := some (if isMap then h.value * 2 % 2 ^ 64 else h.value) } :: stack))
        { s with pos := s.pos + (h.bytes (containerMajor isMap)).length, depth := s.depth + 1 } := by
  refine (skipHead_head hin).2 ⟨fun hs _ => hdet hs, ?_⟩
  have hind : ¬ (h.parsed (containerMajor isMap)).indefinite = true := Bool.false_ne_true
  rw [skipBody_container rfl, if_neg (not_le.2 hd), if_neg hind, if_neg (by exact hne),
    h.bytes_length]
  rfl

theorem skipHead_openIndefinite {stack : List Level} {s : State} {isMap : Bool} {r : Bytes}
    (hin : inp.drop s.pos = initialByte (containerMajor isMap) 31 :: r) (hd : s.depth < o.maxDepth)
    (hdet : o.requireDeterministic = false) :
    skipHead o inp stack s =
      .ok (.again ({ isMap, remaining := none } :: stack))
      { s with pos := s.pos + 1, depth := s.depth + 1 } := by
  have hparse := parseHead_indefinite (containerMajor_ne_simple isMap) hin
  have hres : ¬ (containerMajor isMap = .uint ∨ containerMajor isMap = .nint ∨
    containerMajor isMap = .tag) := by
    cases isMap <;> decide
  have hcheck : whenStrict o (checkHeadDeterministic (parseHead inp s.pos) s.pos) = none := by
    rw [whenStrict, hdet, if_neg Bool.false_ne_true]
  have hbody : skipBody o inp stack (parseHead inp s.pos) s =
      .ok (.again ({ isMap, remaining := none } :: stack))
        { s with pos := s.pos + 1, depth := s.depth + 1 } := by
    rw [skipBody_container (by rw [hparse]), if_neg (not_le.2 hd), if_pos (by rw [hparse]), hparse]
  simp only [skipHead, hcheck, hbody]
  rw [hparse]
  simp [hres]

theorem skipHead_break {top : Level} {rest : List Level} {s : State} {r : Bytes}
    (hrem : top.remaining = none) (hkey : top.isMap = true → top.keyNext = true)
    (hin : inp.drop s.pos = breakByte :: r) :
    skipHead o inp (top :: rest) s =
      .ok (.done rest) { s with pos := s.pos + 1, depth := s.depth - 1 } := by
  have hkey' : ¬ (top.isMap = true ∧ ¬ top.keyNext = true) := by tauto
  simp only [skipHead, parseHead_break hin, hrem]
  rw [if_neg one_ne_zero, if_pos trivial, if_neg (by simp), if_neg hkey']

/-- The loop reads the item at any depth `d`, under any stack, and goes on as after an item. -/
def Skips (o : Options) (inp : Bytes) (d : Nat) (x : Item) : Prop :=
  ∀ (stack : List Level) (s s' : State) (r : Bytes) (m : Nat), s.depth = d →
    inp.drop s.pos = x.bytes ++ r →
    afterItem o inp m (markKey o stack s.pos) (s.advance x.bytes.length) = .ok () s' →
    skipLoop o inp (m + x.bytes.length) stack s = .ok () s'

theorem Skips.flat {d : Nat} {x : Item} (hx : Accepts o d x) (hflat : x.Flat) :
    Skips o inp d x := by
  rintro stack s s' r m rfl hin hafter
  have hpos := x.bytes_pos
  obtain ⟨b, t, hbt⟩ : ∃ b t, x.bytes = b :: t := List.exists_cons_of_length_pos hpos
  have hfuel : m + x.bytes.length = m + (x.bytes.length - 1) + 1 := by omega
  rw [hfuel, skipLoop_step (b := b) (r := t ++ r) (by rw [hin, hbt]; rfl)
    (skipHead_flat hx hflat hin)]
  exact afterItem_mono hafter (by omega)

/-- A level whose items the loop reads runs through to what follows it. -/
private theorem level_complete
    {d : Nat} {xs : List Item} {top : Level} {rest : List Level} {s s₁ s' : State} {m : Nat}
    (hxs : ∀ x ∈ xs, Skips o inp d x) (hd : s.depth = d) (htop : top.Fresh)
    (hf : Fills o inp top s xs s₁) (hafter : afterItem o inp m rest s₁ = .ok () s') :
    skipLoop o inp (m + (Item.bytesList xs).length + (if top.remaining.isSome then 0 else 1))
      (top :: rest) s =
      .ok () s' := by
  induction xs generalizing top s with
  | nil =>
    cases hrem : top.remaining with
    | some n =>
      have hcount := hf.count n hrem
      unfold itemsLeft at hcount
      rw [List.length_nil] at hcount
      split at hcount <;> omega
    | none =>
      obtain ⟨r, hr⟩ := hf.bytes
      rw [hrem] at hr
      simp only [Item.bytesList, List.nil_append, Option.isSome_none, Bool.false_eq_true,
        if_false] at hr
      have hmark : (top.mark o s.pos).remaining = none ∧
          ((top.mark o s.pos).isMap = true → (top.mark o s.pos).keyNext = true) := by
        have hkey := fun hm => (hf.parity hrem hm).1 rfl
        unfold Level.mark
        split <;> exact ⟨hrem, hkey⟩
      have hstate := hf.state
      simp only [hrem, Item.bytesList, List.length_nil, Nat.add_zero, Option.isSome_none,
        Bool.false_eq_true,
        if_false] at hstate ⊢
      rw [skipLoop_step (b := breakByte) (r := r) hr
        (by rw [markKey]; exact skipHead_break hmark.1 hmark.2 hr)]
      rw [hstate] at hafter
      exact hafter
  | cons x xs ih =>
    obtain ⟨r, hr⟩ := hf.bytes
    rw [Item.bytesList, List.append_assoc] at hr
    have hx := hf.accepts x List.mem_cons_self
    have hkey : top.Keyed o → ∀ k ∈ top.prevKey inp,
      k < subspan inp s.pos (s.pos + x.bytes.length) := by
      intro hk
      rw [subspan_eq hr]
      have hkeys := hf.keys hk.1 hk.2.1
      rw [hk.2.2, KeysAscend] at hkeys
      exact hkeys.1
    obtain ⟨top', hpass⟩ := (Level.pass_iff htop.1).2 hkey
    have hfill := (fills_cons htop.1 htop.2 hr hpass).1 hf
    have hp := Level.pass_ok htop.1 hpass
    rw [Item.bytesList, List.length_append]
    cases hc : top'.count with
    | none =>
      rw [hc] at hfill
      obtain ⟨-, rfl, rfl⟩ := hfill
      have hsome : top.remaining.isSome = true := by
        rw [← hp.remaining]
        unfold Level.count at hc
        split at hc
        · simp [*]
        · cases hc
      simp only [Item.bytesList, List.length_nil, Nat.add_zero, hsome, if_true]
      refine hxs x List.mem_cons_self _ _ _ _ _ hd hr ?_
      rw [markKey, afterItem_cons, State.advance_pos, hpass]
      simp only [hc]
      exact hafter
    | some top'' =>
      rw [hc] at hfill
      have hrun :=
        ih (s := s.advance x.bytes.length) (fun y hy => hxs y (List.mem_cons_of_mem _ hy)) hd
        (fresh_count hp htop hc) hfill.2
      have hsame : top''.remaining.isSome = top.remaining.isSome := by
        rw [← hp.remaining]
        unfold Level.count at hc
        split at hc
        · simp only at hc
          split at hc
          · cases hc
          · cases hc
            simp [*]
        · cases hc
          rfl
      rw [hsame] at hrun
      have hfuel : m + (x.bytes.length + (Item.bytesList xs).length) +
        (if top.remaining.isSome then 0 else 1) =
          (m + (Item.bytesList xs).length + (if top.remaining.isSome then 0 else 1)) +
            x.bytes.length := by omega
      rw [hfuel]
      refine hxs x List.mem_cons_self _ _ _ _ _ hd hr ?_
      rw [markKey, afterItem_cons, State.advance_pos, hpass]
      simp only [hc]
      exact hrun

theorem Accepts.skips {d : Nat} {x : Item} (hx : Accepts o d x) : Skips o inp d x := by
  induction hx with
  | leaf hp => exact .flat (.leaf hp) trivial
  | str hp => exact .flat (.str hp) trivial
  | chunked hp => exact .flat (.chunked hp) trivial
  | @container d isMap count xs hp hd hxs ih =>
    have hx : Accepts o d (.container isMap count xs) := .container hp hd hxs
    cases count with
    | some h =>
      cases xs with
      | nil => exact .flat hx trivial
      | cons x xs =>
        rintro stack s s' r m rfl hin hafter
        have hne : h.value ≠ 0 := by
          intro hzero
          have hcount : (x :: xs).length = skipCount isMap h.value := hp.1
          rw [skipCount, if_pos hzero] at hcount
          cases hcount
        have hbytes : (Item.container isMap (some h) (x :: xs)).bytes =
            h.bytes (containerMajor isMap) ++ Item.bytesList (x :: xs) := rfl
        have hin' := hin
        rw [hbytes, List.append_assoc] at hin'
        obtain ⟨b, t, hbt⟩ : ∃ b t, h.bytes (containerMajor isMap) = b :: t := ⟨_, _, rfl⟩
        have hdet : o.requireDeterministic = true → h.Shortest := fun hs => (hp.2.2 hs).1
        have hf := (Fills.definite hin' hd hne hdet rfl).2 ⟨hx, ⟨r, hin⟩, rfl⟩
        have hrun := level_complete ih rfl (fresh_definite isMap h) hf hafter
        have hfuel : m + (Item.container isMap (some h) (x :: xs)).bytes.length =
            m + (Item.bytesList (x :: xs)).length + t.length + 1 := by
          rw [hbytes, List.length_append, hbt, List.length_cons]
          omega
        rw [hfuel, skipLoop_step (b := b) (r := t ++ Item.bytesList (x :: xs) ++ r)
          (by rw [hin', hbt]; simp)
          (skipHead_openDefinite hin' hd hne hdet)]
        exact skipLoop_mono hrun (Nat.le_add_right _ _)
    | none =>
      rintro stack s s' r m rfl hin hafter
      have hdet : o.requireDeterministic = false := by
        cases hs : o.requireDeterministic with
        | false => rfl
        | true => exact (hp.2.2 hs).elim
      have hbytes : (Item.container isMap none xs).bytes =
          initialByte (containerMajor isMap) 31 :: (Item.bytesList xs ++ [breakByte]) := rfl
      have hin' := hin
      rw [hbytes, List.cons_append] at hin'
      have hf := (Fills.indefinite hin' hd hdet rfl).2 ⟨hx, ⟨r, hin⟩, rfl⟩
      have hrun := level_complete ih rfl (fresh_indefinite isMap) hf hafter
      have hfuel : m + (Item.container isMap none xs).bytes.length =
        m + (Item.bytesList xs).length + 1 + 1 := by
        rw [hbytes, List.length_cons, List.length_append]
        rfl
      rw [hfuel, skipLoop_step hin' (skipHead_openIndefinite hin' hd hdet)]
      exact hrun
  | @tag d h x hp hx ih =>
    rintro stack s s' r m rfl hin hafter
    have hin' := hin
    rw [Item.bytes, List.append_assoc] at hin'
    have hdrop := drop_add hin'
    have hpos := x.bytes_pos
    obtain ⟨b, t, hbt⟩ : ∃ b t, h.bytes .tag = b :: t := ⟨_, _, rfl⟩
    have hne : x.bytes ++ r ≠ [] := by
      rw [ne_eq, List.append_eq_nil_iff, not_and_or, ← List.length_eq_zero_iff]
      omega
    have hbrk : (x.bytes ++ r).head? ≠ some breakByte := by
      intro hhead
      obtain ⟨s'', hs''⟩ := List.head?_eq_some_iff.1 hhead
      exact Item.bytes_ne_break hs''
    have hstep : skipHead o inp (markKey o stack s.pos) s =
        .ok (.again (markKey o stack s.pos)) (s.advance (h.bytes .tag).length) :=
      (skipHead_head hin').2 ⟨fun hs _ => hp.2.2 hs, (skipBody_tag hin').2 ⟨hne, hbrk, rfl, rfl⟩⟩
    have hfuel : m + (Item.tag h x).bytes.length = m + x.bytes.length + t.length + 1 := by
      rw [Item.bytes, List.length_append, hbt, List.length_cons]
      omega
    rw [hfuel, skipLoop_step (b := b) (r := t ++ x.bytes ++ r) (by rw [hin', hbt]; simp) hstep]
    refine skipLoop_mono (ih (markKey o stack s.pos) _ s' r m rfl hdrop ?_) (Nat.le_add_right _ _)
    rw [markKey_markKey, State.advance_advance, ← List.length_append]
    exact hafter

/-! ### The validator -/

theorem skipLoop_ok {fuel : Nat} {s s' : State} (h : skipLoop o inp fuel [] s = .ok () s') :
    ∃ x r, Accepts o s.depth x ∧ inp.drop s.pos = x.bytes ++ r ∧ s' = s.advance x.bytes.length := by
  rcases (skipLoop_sound fuel).1 _ _ _ h with ⟨x, r, m, hx, hin, -, hafter⟩ | ⟨_, _, _, _, hnil, _⟩
  · rw [markKey, afterItem_nil] at hafter
    cases hafter
    exact ⟨x, r, hx, hin, rfl⟩
  · cases hnil

/-- The validator accepts exactly the items, and ends behind them at the depth it started from. -/
theorem skipValue_ok_iff {s s' : State} :
    skipValue o inp s = .ok () s' ↔
      ∃ x r, Accepts o s.depth x ∧ inp.drop s.pos = x.bytes ++ r ∧
        s' = s.advance x.bytes.length := by
  refine ⟨skipLoop_ok, ?_⟩
  rintro ⟨x, r, hx, hin, rfl⟩
  have hlen := length_drop hin
  rw [List.length_append] at hlen
  have hrun := hx.skips [] s _ r 0 rfl hin afterItem_nil
  exact skipLoop_mono hrun (by omega)

end VCodec.Cbor
