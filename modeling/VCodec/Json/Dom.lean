import VCodec.Json.Integers
import VCodec.Json.Span

/-!
# The generic decoder

`dom::value` dispatches on the kind of what comes next and goes through the cursors, as every
decoder of user code may. Where the validator accepts, it returns, and stands at the same place: the
proof follows the derivation of the text, with depth of recursion enough. Together with `spanLaws`
this says that skipping and decoding agree on where a value ends.
-/

namespace VCodec.Json

open Run (ite_eq_ok)

/-! ### The decoder -/

inductive Dom
  | null
  | boolean (b : Bool)
  | number (d : Double)
  | text (t : Bytes)
  | array (xs : List Dom)
  | object (es : List (Bytes × Dom))

/-- The decoder may run out of the model's recursion. -/
abbrev DomM := EStateM Abort State

def lift {α : Type} (m : M α) : DomM α := fun s =>
  match m s with
  | .ok a t => .ok a t
  | .error e t => .error (.error e) t

section

variable (o : Options) (cc : Charconv) (inp : Bytes)

/-- The elements or entries up to the end of the container. -/
def domLoop {α : Type} (b : Brackets) (member : DomM α) : Nat → Cursor → List α → DomM (List α)
  | 0, _, _ => throw .outOfFuel
  | fuel + 1, c, xs => do
    let (more, c) ← lift (Cursor.next inp b c)
    if more then do
      let x ← member
      domLoop b member fuel c (xs ++ [x])
    else return xs

def domEntry (dec : DomM Dom) : DomM (Bytes × Dom) := do
  let k ← lift (keyText o inp)
  let v ← dec
  return (k.text, v)

def decodeDom : Nat → DomM Dom
  | 0 => throw .outOfFuel
  | fuel + 1 => do
    match ← lift (peek cc inp) with
    | .null => do
      lift (expectNull inp)
      return .null
    | .boolean => return .boolean (← lift (expectBoolean inp))
    | .uint | .sint | .real => return .number (← lift (expectReal cc inp))
    | .text => return .text (← lift (expectText o inp)).text
    | .array => do
      let c ← lift (expectArray o inp)
      return .array (← domLoop inp arrayBrackets (decodeDom fuel) fuel c [])
    | .map => do
      let c ← lift (expectMap o inp)
      return .object (← domLoop inp objectBrackets (domEntry o inp (decodeDom fuel)) fuel c [])
    | _ => do
      -- the validator words the error
      lift (skipValue o cc inp)
      throw (.error (error inp .unexpectedToken (← lift (offset inp))))

end

variable {o : Options} {cc : Charconv} {inp : Bytes} {s t : State} {α β : Type}

theorem lift_ok {m : M α} {a : α} (h : m s = .ok a t) : lift m s = .ok a t := by
  rw [lift, h]

theorem lift_bind {m : M α} {a : α} (h : m s = .ok a t) (f : α → DomM β) :
    (lift m >>= f) s = f a t :=
  Run.bind_of_ok (lift_ok h) f

theorem lift_skipped {m : M α} (hm : SkipsBlanks inp m) (f : α → DomM β) (s : State) :
    (lift m >>= f) (s.skipped inp) = (lift m >>= f) s := by
  rw [Run.bind_apply, Run.bind_apply, lift, lift, hm s]

theorem decodeDom_skipped (fuel : Nat) (s : State) :
    decodeDom o cc inp (fuel + 1) (s.skipped inp) = decodeDom o cc inp (fuel + 1) s := by
  rw [decodeDom]
  exact lift_skipped (.blanks _) _ s

/-! ### Scalars -/

/-- What a value is classified as by its first byte, a number apart. -/
def kindOf (c : UInt8) : Kind :=
  if c = 0x6E then .null
  else if c = 0x74 ∨ c = 0x66 then .boolean
  else if c = 0x22 then .text
  else if c = 0x5B then .array
  else if c = 0x7B then .map
  else .undefined

theorem peek_at {c : UInt8} (hat : at? inp (s.skipped inp).pos = some c)
    (hc : ¬ (c = 0x2D ∨ isDigit c = true)) :
    peek cc inp s = .ok (kindOf c) (s.skipped inp) := by
  rw [peek, Run.bind_of_ok (skipWs_run s), Run.bind_of_ok (Run.get_apply _), hat]
  simp only [if_neg hc]
  rfl

theorem Number.scan_kind {n : Number} (hn : n.InRange cc) :
    (n.scan cc).kind = .uint ∨ (n.scan cc).kind = .sint ∨ (n.scan cc).kind = .real := by
  have hkind := n.inRange_iff.1 hn
  unfold Number.scan Number.realScan at hkind ⊢
  split_ifs at hkind ⊢
  all_goals
    cases hchars : cc.fromChars n.bytes with
    | some d => simp
    | none => simp_all

/-- Where a value stands, nothing is skipped. -/
theorem Begins.skipped_self {bs : Bytes} (h : Begins bs) (hdrop : inp.drop s.pos = bs) :
    s.skipped inp = s := by
  exact (@Begins.skipped inp s [] bs h blank_nil hdrop).1

theorem blanks_run {m : M α} (hskip : s.skipped inp = s) : (do skipWs inp; m : M α) s = m s := by
  rw [Run.bind_of_ok (skipWs_run s), hskip]

theorem mismatch_at {expected : Bytes} {c : UInt8} (hat : at? inp s.pos = some c) :
    mismatch inp expected c s = .ok () s :=
  if_pos hat

theorem decodeDom_word {w rest : Bytes} {x : Tree} (h : Word w x)
    (hdrop : inp.drop s.pos = w ++ rest) (fuel : Nat) :
    ∃ x, decodeDom o cc inp (fuel + 1) s = .ok x (s.advance w.length) := by
  have hlit := literal_at hdrop
  cases h with
  | null =>
    have hat : at? inp s.pos = some 0x6E := at?_eq hdrop
    have hskip : s.skipped inp = s := Begins.skipped_self ⟨_, _, hdrop, by decide⟩ rfl
    have hpeek : peek cc inp s = .ok _ (s.skipped inp) :=
      peek_at (by rw [hskip]; exact hat) (by decide)
    have hnull : expectNull inp s = .ok () (s.advance 4) := by
      rw [expectNull, blanks_run hskip, Run.bind_of_ok (mismatch_at hat)]
      exact hlit
    rw [hskip] at hpeek
    exact ⟨.null, by rw [decodeDom, lift_bind hpeek]; exact lift_bind hnull _⟩
  | true =>
    have hat : at? inp s.pos = some 0x74 := at?_eq hdrop
    have hskip : s.skipped inp = s := Begins.skipped_self ⟨_, _, hdrop, by decide⟩ rfl
    have hpeek : peek cc inp s = .ok _ (s.skipped inp) :=
      peek_at (by rw [hskip]; exact hat) (by decide)
    have hboolean : expectBoolean inp s = .ok true (s.advance 4) := by
      rw [expectBoolean, blanks_run hskip, Run.bind_of_ok (Run.get_apply s), if_pos hat,
        Run.bind_of_ok hlit]
      rfl
    rw [hskip] at hpeek
    exact ⟨.boolean true, by rw [decodeDom, lift_bind hpeek]; exact lift_bind hboolean _⟩
  | false =>
    have hat : at? inp s.pos = some 0x66 := at?_eq hdrop
    have hskip : s.skipped inp = s := Begins.skipped_self ⟨_, _, hdrop, by decide⟩ rfl
    have hpeek : peek cc inp s = .ok _ (s.skipped inp) :=
      peek_at (by rw [hskip]; exact hat) (by decide)
    have hno : ¬ at? inp s.pos = some 0x74 := by
      rw [hat]
      decide
    have hboolean : expectBoolean inp s = .ok false (s.advance 5) := by
      rw [expectBoolean, blanks_run hskip, Run.bind_of_ok (Run.get_apply s), if_neg hno, if_pos hat,
        Run.bind_of_ok hlit]
      rfl
    rw [hskip] at hpeek
    exact ⟨.boolean false, by rw [decodeDom, lift_bind hpeek]; exact lift_bind hboolean _⟩

theorem decodeDom_number {n : Number} {rest : Bytes} (hn : n.InRange cc) (hends : n.Ends rest)
    (hdrop : inp.drop s.pos = n.bytes ++ rest) (fuel : Nat) :
    ∃ x, decodeDom o cc inp (fuel + 1) s = .ok x (s.advance n.bytes.length) := by
  have hskip := (n.begins.append rest).skipped_self hdrop
  have hscan : scanNumber cc (inp.drop s.pos) = n.scan cc := by rw [hdrop, scanNumber_append hends]
  have hnumber : number cc inp (str "number") s = .ok (n.scan cc) s :=
    number_ok hdrop hends rfl (n.inRange_iff.1 hn)
  have hpeek : peek cc inp s = .ok (n.scan cc).kind s := by
    obtain ⟨c, cs, hcons, hc⟩ := n.exists_cons
    have hat : at? inp s.pos = some c := at?_eq (by rw [hdrop, hcons]; rfl)
    have hother : ∀ x : UInt8, ¬ (x = 0x2D ∨ isDigit x = true) → c ≠ x := by
      rintro x hx rfl
      exact hx hc
    have hliteral : ¬ (c = 0x74 ∨ c = 0x66) := not_or.2 ⟨hother _ (by decide), hother _ (by decide)⟩
    rw [peek, blanks_run hskip, Run.bind_of_ok (Run.get_apply s), hat]
    dsimp only
    rw [if_neg (hother _ (by decide)), if_neg hliteral, if_neg (hother _ (by decide)),
      if_neg (hother _ (by decide)),
      if_neg (hother _ (by decide)), if_pos hc, hscan, if_neg (n.inRange_iff.1 hn)]
    rfl
  obtain ⟨d, hreal⟩ : ∃ d, expectReal cc inp s = .ok d (s.advance n.bytes.length) := by
    rw [expectReal, blanks_run hskip, Run.bind_of_ok hnumber, ← n.scan_length cc]
    exact ⟨_, rfl⟩
  refine ⟨.number d, ?_⟩
  rw [decodeDom, lift_bind hpeek]
  rcases Number.scan_kind hn with hkind | hkind | hkind
  · rw [hkind]
    exact lift_bind hreal _
  · rw [hkind]
    exact lift_bind hreal _
  · rw [hkind]
    exact lift_bind hreal _

theorem decodeDom_quoted {k text rest : Bytes} (hk : Quoted o k text)
    (hdrop : inp.drop s.pos = k ++ rest) (fuel : Nat) :
    ∃ x, decodeDom o cc inp (fuel + 1) s = .ok x (s.advance k.length) := by
  have hskip := (hk.begins.append rest).skipped_self hdrop
  have hat : at? inp s.pos = some 0x22 := by
    cases hk
    exact at?_eq hdrop
  have hpeek : peek cc inp s = .ok _ (s.skipped inp) :=
    peek_at (by rw [hskip]; exact hat) (by decide)
  obtain ⟨r, hparse, -⟩ := hk.parseString hdrop
  have htext : expectText o inp s = .ok r (s.advance k.length) := by
    rw [expectText, blanks_run hskip, Run.bind_of_ok (mismatch_at hat)]
    exact hparse
  rw [hskip] at hpeek
  exact ⟨.text r.text, by rw [decodeDom, lift_bind hpeek]; exact lift_bind htext _⟩

/-! ### Containers -/

/-- A member of a container, as the decoder returns it. -/
def DomMember : Bool → Type
  | false => Dom
  | true => Bytes × Dom

variable (o cc inp) in
def domMember (fuel : Nat) : (b : Bool) → DomM (DomMember b)
  | false => decodeDom o cc inp fuel
  | true => domEntry o inp (decodeDom o cc inp fuel)

def domContainer : (b : Bool) → List (DomMember b) → Dom
  | false, xs => .array xs
  | true, es => .object es

theorem domMember_skipped (fuel : Nat) (b : Bool) (s : State) :
    domMember o cc inp (fuel + 1) b (s.skipped inp) = domMember o cc inp (fuel + 1) b s := by
  cases b with
  | false => exact decodeDom_skipped fuel s
  | true => exact lift_skipped (.blanks _) _ s

theorem next_close {b : Bool} {c : Cursor} {ws rest : Bytes} (hws : Blank ws)
    (hdrop : inp.drop s.pos = ws ++ closeByte b :: rest) :
    Cursor.next inp (brackets b) c s =
      .ok (false, c) { s.advance (ws.length + 1) with depth := s.depth - 1 } := by
  have hblank : isWs (closeByte b) = false := by
    cases b with
    | false => rfl
    | true => rfl
  have hskip := skipped_eq hws hdrop fun c hc => by cases hc; exact hblank
  have hat : at? inp (s.advance ws.length).pos = some (closeByte b) := at?_eq (drop_add_of hdrop)
  rw [Cursor.next, Run.bind_of_ok (skipWs_run s), Run.bind_of_ok (Run.get_apply _), hskip, hat]
  dsimp only
  rw [if_pos (close_brackets b).symm]
  rfl

theorem ne_close {b : Bool} {c : UInt8} (hbrace : c ≠ 0x7D) (hbracket : c ≠ 0x5D) :
    c ≠ (brackets b).close := by
  cases b with
  | false => exact hbracket
  | true => exact hbrace

theorem next_first {b : Bool} {ws tail : Bytes} (hws : Blank ws) (htail : Begins tail)
    (hdrop : inp.drop s.pos = ws ++ tail) :
    Cursor.next inp (brackets b) {} s = .ok (true, { first := false }) (s.skipped inp) := by
  obtain ⟨c, hat, hbrace, hbracket⟩ := htail.at? hws hdrop
  rw [Cursor.next, Run.bind_of_ok (skipWs_run s), Run.bind_of_ok (Run.get_apply _), hat]
  dsimp only
  rw [if_neg (ne_close hbrace hbracket)]
  rfl

theorem next_comma {b : Bool} {ws ws' tail : Bytes} (hws : Blank ws) (hws' : Blank ws')
    (htail : Begins tail) (hdrop : inp.drop s.pos = ws ++ 0x2C :: (ws' ++ tail)) :
    Cursor.next inp (brackets b) { first := false } s =
      .ok (true, { first := false }) ((s.advance (ws.length + 1)).skipped inp) := by
  have hskip := skipped_eq hws hdrop fun c hc => by cases hc; rfl
  have hcomma := drop_add_of hdrop
  have hat : at? inp (s.advance ws.length).pos = some 0x2C := at?_eq hcomma
  obtain ⟨c, hnext, hbrace, hbracket⟩ :=
    htail.at? (s := s.advance (ws.length + 1)) hws' (drop_succ_of hcomma)
  have hopen : ¬ at? inp ((s.advance (ws.length + 1)).skipped inp).pos =
    some (brackets b).close := by
    rw [hnext]
    exact fun h => ne_close hbrace hbracket (Option.some.inj h)
  have hno : ¬ (0x2C : UInt8) = (brackets b).close := ne_close (by decide) (by decide)
  rw [Cursor.next, Run.bind_of_ok (skipWs_run s), Run.bind_of_ok (Run.get_apply _), hskip, hat]
  dsimp only
  rw [if_neg hno, if_neg Bool.false_ne_true, if_neg (not_not.2 rfl),
    Run.bind_of_ok (Run.modify_apply _ _),
    State.advance_advance, Run.bind_of_ok (skipWs_run _), Run.bind_of_ok (Run.get_apply _),
      if_neg hopen]
  rfl

/-- A container is opened, its members decoded, and wrapped. -/
theorem decodeDom_container
    {b : Bool} {bs : Bytes} (hroom : s.depth < o.maxDepth)
    (hdrop : inp.drop s.pos = openByte b :: bs) (fuel : Nat) :
    decodeDom o cc inp (fuel + 1) s =
      (do
        let xs ← domLoop inp (brackets b) (domMember o cc inp fuel b) fuel {} []
        return domContainer b xs) { s.advance 1 with depth := s.depth + 1 } := by
  have hskip := (begins_open b bs).skipped_self hdrop
  have hat := at?_eq hdrop
  have henter : enter o inp s = .ok () { s.advance 1 with depth := s.depth + 1 } := by
    rw [enter, if_neg (Nat.not_le.2 hroom)]
    rfl
  have hopen : ∀ expected, expectContainer o inp expected (openByte b) s =
    .ok {} { s.advance 1 with depth := s.depth + 1 } := by
    intro expected
    rw [expectContainer, blanks_run hskip, Run.bind_of_ok (mismatch_at hat), Run.bind_of_ok henter]
    rfl
  cases b with
  | false =>
    have hpeek : peek cc inp s = .ok _ (s.skipped inp) :=
      peek_at (by rw [hskip]; exact hat) (by decide)
    rw [hskip] at hpeek
    rw [decodeDom, lift_bind hpeek]
    exact lift_bind (hopen _) _
  | true =>
    have hpeek : peek cc inp s = .ok _ (s.skipped inp) :=
      peek_at (by rw [hskip]; exact hat) (by decide)
    rw [hskip] at hpeek
    rw [decodeDom, lift_bind hpeek]
    exact lift_bind (hopen _) _

theorem keyText_at {ws k key ws' rest : Bytes} (hws : Blank ws) (hk : Quoted o k key)
    (hws' : Blank ws') (hdrop : inp.drop s.pos = ws ++ (k ++ (ws' ++ 0x3A :: rest))) :
    ∃ r, keyText o inp s = .ok r (s.advance (ws.length + (k.length + (ws'.length + 1)))) := by
  obtain ⟨hskip, hkey⟩ := (hk.begins.append _).skipped hws hdrop
  obtain ⟨r, hparse, -⟩ := hk.parseString hkey
  have hat : at? inp (s.advance ws.length).pos = some 0x22 := by
    cases hk
    exact at?_eq hkey
  have hcolon := passColon_at (s := (s.advance ws.length).advance k.length) hws' (drop_add_of hkey)
  refine ⟨r, ?_⟩
  rw [keyText, Run.bind_of_ok (skipWs_run s), Run.bind_of_ok (Run.get_apply _), hskip, hat]
  dsimp only
  rw [if_neg (not_not.2 rfl), Run.bind_of_ok hparse, Run.bind_of_ok hcolon, State.advance_advance,
    State.advance_advance]
  rfl

/-! ### Texts of the grammar are decoded -/

/-- Where a phrase stands, the decoder passes it, if it may recur often enough. -/
def Decodes (o : Options) (cc : Charconv) (inp : Bytes) : Phrase → Nat → Bytes → Prop
  | .value, d, v =>
    ∃ n, ∀ fuel, n ≤ fuel → ∀ (s : State) (rest : Bytes), s.depth = d → Uncut v rest →
      inp.drop s.pos = v ++ rest →
    ∃ x, decodeDom o cc inp fuel s = .ok x (s.advance v.length)
  | .member b, d, x =>
    ∃ n, ∀ fuel, n ≤ fuel → ∀ (s : State) (rest : Bytes), s.depth = d → Delimits rest →
      inp.drop s.pos = x ++ rest →
    ∃ y, domMember o cc inp fuel b s = .ok y (s.advance x.length)
  | .rest b, d, y =>
    ∃ n, ∀ fuel, n ≤ fuel → ∀ k, n ≤ k → ∀ (s : State) (rest : Bytes) (xs : List (DomMember b)),
      s.depth = d →
    inp.drop s.pos = y ++ rest →
      ∃ zs, domLoop inp (brackets b) (domMember o cc inp fuel b) k { first := false } xs s =
      .ok zs { s.advance y.length with depth := s.depth - 1 }

theorem decodes_scalar {d : Nat} {v : Bytes}
    (h : ∀ (fuel : Nat) (s : State) (rest : Bytes), Uncut v rest → inp.drop s.pos = v ++ rest →
      ∃ x, decodeDom o cc inp (fuel + 1) s = .ok x (s.advance v.length)) :
        Decodes o cc inp .value d v := by
  refine ⟨1, fun fuel hfuel s rest _ hcut hdrop => ?_⟩
  obtain ⟨k, rfl⟩ : ∃ k, fuel = k + 1 := ⟨fuel - 1, by omega⟩
  exact h k s rest hcut hdrop

/-- One more member, and the loop goes on. -/
theorem domLoop_more {b : Bool} {fuel k : Nat} {c : Cursor} {xs : List (DomMember b)}
    {x : DomMember b} {u : State}
    (hnext : Cursor.next inp (brackets b) c s = .ok (true, { first := false }) (t.skipped inp))
    (hmember : domMember o cc inp (fuel + 1) b t = .ok x u) :
    domLoop inp (brackets b) (domMember o cc inp (fuel + 1) b) (k + 1) c xs s =
      domLoop inp (brackets b) (domMember o cc inp (fuel + 1) b) k { first := false }
        (xs ++ [x]) u := by
  rw [domLoop, lift_bind hnext]
  dsimp only
  rw [if_pos rfl]
  exact Run.bind_of_ok ((domMember_skipped fuel b t).trans hmember) _

theorem domLoop_done {b : Bool} {member : DomM α} {k : Nat} {c : Cursor} {xs : List α}
    (hnext : Cursor.next inp (brackets b) c s = .ok (false, c) t) :
    domLoop inp (brackets b) member (k + 1) c xs s = .ok xs t := by
  rw [domLoop, lift_bind hnext]
  dsimp only
  rw [if_neg Bool.false_ne_true]
  rfl

theorem Derives.decodes {p : Phrase} {d : Nat} {bs : Bytes} {ms : List (Option Bytes × Tree)}
    (h : Derives o cc p d bs ms) :
    Decodes o cc inp p d bs := by
  induction h with
  | word h => exact decodes_scalar fun fuel s rest _ hdrop => decodeDom_word h hdrop fuel
  | number n hn =>
    exact decodes_scalar fun fuel s rest hcut hdrop => decodeDom_number hn (hcut n rfl) hdrop fuel
  | text h => exact decodes_scalar fun fuel s rest _ hdrop => decodeDom_quoted h hdrop fuel
  | @empty d b ws hws hroom =>
    refine ⟨2, fun fuel hfuel s rest hdepth _ hdrop => ?_⟩
    obtain ⟨k, rfl⟩ : ∃ k, fuel = k + 1 + 1 := ⟨fuel - 2, by omega⟩
    rw [List.cons_append, List.append_assoc] at hdrop
    have hnext := next_close (s := { s.advance 1 with depth := s.depth + 1 }) (c := {}) hws
      (drop_succ_of hdrop)
    rw [decodeDom_container (by omega) hdrop, Run.bind_of_ok (domLoop_done hnext)]
    refine ⟨domContainer b [], ?_⟩
    simp only [Run.pure_apply, State.advance, List.length_cons, List.length_append, List.length_nil,
      Nat.add_sub_cancel]
    congr 2
    omega
  | @full d b x y m ms hroom hx hy ihx ihy =>
    obtain ⟨n, hx'⟩ := ihx
    obtain ⟨n', hy'⟩ := ihy
    refine ⟨n + n' + 3, fun fuel hfuel s rest hdepth _ hdrop => ?_⟩
    obtain ⟨k, rfl⟩ : ∃ k, fuel = k + 1 + 1 := ⟨fuel - 2, by omega⟩
    obtain ⟨ws, tail, rfl, hws, htail⟩ := hx.begins
    simp only [List.cons_append, List.append_assoc] at hdrop
    have hinside : inp.drop (s.advance 1).pos = ws ++ (tail ++ (y ++ rest)) := drop_succ_of hdrop
    have hnext := next_first (b := b) (s := { s.advance 1 with depth := s.depth + 1 }) hws
      (htail.append _) hinside
    rw [← List.append_assoc] at hinside
    obtain ⟨z, hz⟩ :=
      hx' (k + 1) (by omega) { s.advance 1 with depth := s.depth + 1 } _
      (by exact congrArg (· + 1) hdepth)
      (hy.delimits rest) hinside
    obtain ⟨zs, hzs⟩ := hy' (k + 1) (by omega) k (by omega)
      (State.advance { s.advance 1 with depth := s.depth + 1 } (ws ++ tail).length) rest ([] ++ [z])
      (by exact congrArg (· + 1) hdepth) (drop_add_of hinside)
    rw [decodeDom_container (by omega) hdrop, Run.bind_of_ok ((domLoop_more hnext hz).trans hzs)]
    refine ⟨domContainer b zs, ?_⟩
    simp only [Run.pure_apply, State.advance, List.length_cons, List.length_append,
      Nat.add_sub_cancel]
    congr 2
    omega
  | @element d ws v x hws hv ihv =>
    obtain ⟨n, hv'⟩ := ihv
    refine ⟨n + 1, fun fuel hfuel s rest hdepth hends hdrop => ?_⟩
    obtain ⟨k, rfl⟩ : ∃ k, fuel = k + 1 := ⟨fuel - 1, by omega⟩
    rw [List.append_assoc] at hdrop
    obtain ⟨hskip, hvalue⟩ := (hv.begins.append rest).skipped hws hdrop
    obtain ⟨z, hz⟩ :=
      hv' (k + 1) (by omega) (s.advance ws.length) rest hdepth (hends.uncut v) hvalue
    rw [← hskip, decodeDom_skipped, hskip, State.advance_advance, ← List.length_append] at hz
    exact ⟨z, hz⟩
  | @entry d ws k key ws' ws'' v x hws hk hws' hws'' hv ihv =>
    obtain ⟨n, hv'⟩ := ihv
    refine ⟨n + 1, fun fuel hfuel s rest hdepth hends hdrop => ?_⟩
    obtain ⟨j, rfl⟩ : ∃ j, fuel = j + 1 := ⟨fuel - 1, by omega⟩
    simp only [List.append_assoc, List.cons_append] at hdrop
    obtain ⟨r, hkey⟩ := keyText_at hws hk hws' hdrop
    have hafter : inp.drop (s.advance (ws.length + (k.length + (ws'.length + 1)))).pos =
      ws'' ++ (v ++ rest) := by
      have h := drop_succ_of (drop_add_of (drop_add_of (drop_add_of hdrop)))
      simp only [Nat.add_assoc] at h
      exact h
    obtain ⟨hskip, hvalue⟩ := (hv.begins.append rest).skipped hws'' hafter
    obtain ⟨z, hz⟩ := hv' (j + 1) (by omega) _ rest (by exact hdepth) (hends.uncut v) hvalue
    rw [← hskip, decodeDom_skipped, hskip, State.advance_advance, State.advance_advance] at hz
    refine ⟨(r.text, z), ?_⟩
    rw [domMember, domEntry, lift_bind hkey, Run.bind_of_ok hz, Run.pure_apply]
    simp only [List.length_append, List.length_cons]
    congr 2
    omega
  | @close d b ws hws =>
    refine ⟨1, fun fuel _ k hk s rest xs _ hdrop => ?_⟩
    obtain ⟨k, rfl⟩ : ∃ j, k = j + 1 := ⟨k - 1, by omega⟩
    rw [List.append_assoc] at hdrop
    rw [List.length_append]
    exact ⟨xs, domLoop_done (next_close hws hdrop)⟩
  | @comma d b ws x y m ms hws hx hy ihx ihy =>
    obtain ⟨n, hx'⟩ := ihx
    obtain ⟨n', hy'⟩ := ihy
    refine ⟨n + n' + 1, fun fuel hfuel k hk s rest xs hdepth hdrop => ?_⟩
    obtain ⟨j, rfl⟩ : ∃ j, fuel = j + 1 := ⟨fuel - 1, by omega⟩
    obtain ⟨k, rfl⟩ : ∃ j, k = j + 1 := ⟨k - 1, by omega⟩
    obtain ⟨ws', tail, rfl, hws', htail⟩ := hx.begins
    simp only [List.append_assoc, List.cons_append] at hdrop
    have hmember : inp.drop (s.advance (ws.length + 1)).pos = ws' ++ (tail ++ (y ++ rest)) :=
      drop_succ_of (drop_add_of hdrop)
    have hnext := next_comma (b := b) hws hws' (htail.append _) hdrop
    rw [← List.append_assoc] at hmember
    obtain ⟨z, hz⟩ :=
      hx' (j + 1) (by omega) (s.advance (ws.length + 1)) _ hdepth (hy.delimits rest) hmember
    obtain ⟨zs, hzs⟩ :=
      hy' (j + 1) (by omega) k (by omega) ((s.advance (ws.length + 1)).advance (ws' ++ tail).length)
      rest
      (xs ++ [z]) hdepth (drop_add_of hmember)
    refine ⟨zs, ((domLoop_more hnext hz).trans hzs).trans ?_⟩
    simp only [State.advance, List.length_append, List.length_cons]
    congr 2
    omega

/-! ### Agreement -/

/-- A run of the validator ends where `t` stands. -/
def SkipsTo (o : Options) (cc : Charconv) (inp : Bytes) (s t : State) : Prop :=
  ∃ u, skipValue o cc inp s = .ok () u ∧ u.pos = t.pos ∧ u.depth = t.depth

theorem Spans.skipsTo (h : Spans o cc inp s t) : SkipsTo o cc inp s t := by
  obtain ⟨ws, v, x, hws, hv, hcut, hpass⟩ := h
  have hdrop : inp.drop s.pos = ws ++ (v ++ inp.drop t.pos) := by
    rw [hpass.bytes, List.append_assoc]
  exact ⟨_, skipValue_at hdrop hws hv hcut, hpass.pos.symm, hpass.depth.symm⟩

/-- The entry points of construction at a type: a value, a member, a call. -/
def decoders (env : Env) (o : Options) (cc : Charconv) (inp : Bytes) (fuel : Nat) (f : FieldMeta)
    (t : Ty) : List (D State Unit) :=
  let r := reader o cc inp
  [decodeValue env r fuel f t, decodeFieldValue env r (decodeValue env r fuel f) f t,
    VCodec.decode env r fuel t]

theorem spans_of_decoders (ha : Addressable o inp) {env : Env} {fuel : Nat} {f : FieldMeta} {t : Ty}
    {m : D State Unit} {b b' : Build State} (hm : m ∈ decoders env o cc inp fuel f t)
    (h : m b = .ok () b') : Spans o cc inp b.reader b'.reader := by
  simp only [decoders, List.mem_cons, List.not_mem_nil, or_false] at hm
  rcases hm with rfl | rfl | rfl
  · exact (spanLaws ha).passes_decodeValue fuel f t _ _ _ h
  · exact (spanLaws ha).passes_decodeFieldValue (fun t => (spanLaws ha).passes_decodeValue fuel f t)
      f t _ _ _ h
  · exact (spanLaws ha).passes_decode fuel t _ _ _ h

theorem decodeDom_of_skipValue (h : skipValue o cc inp s = .ok () t) :
    ∃ n, ∀ fuel, n ≤ fuel → ∃ x u, decodeDom o cc inp fuel s = .ok x u ∧ u.pos = t.pos ∧
      u.depth = t.depth := by
  obtain ⟨ws, v, x, hws, hv, hcut, hpass⟩ := skipValue_passes h
  have hdrop : inp.drop s.pos = ws ++ (v ++ inp.drop t.pos) := by
    rw [hpass.bytes, List.append_assoc]
  obtain ⟨hskip, hvalue⟩ := (hv.begins.append _).skipped hws hdrop
  have hphrase : Decodes o cc inp .value s.depth v := hv.decodes
  obtain ⟨n, hdecodes⟩ := hphrase
  refine ⟨n + 1, fun fuel hfuel => ?_⟩
  obtain ⟨k, rfl⟩ : ∃ k, fuel = k + 1 := ⟨fuel - 1, by omega⟩
  obtain ⟨x, hx⟩ := hdecodes (k + 1) (by omega) (s.advance ws.length) _ rfl hcut hvalue
  rw [← hskip, decodeDom_skipped, hskip, State.advance_advance, ← List.length_append] at hx
  exact ⟨x, _, hx, hpass.pos.symm, hpass.depth.symm⟩

/-- Where construction of any type returns, the validator passes the same text, and where the
validator accepts, so does the generic decoder. -/
theorem skipValue_agrees (env : Env) (o : Options) (cc : Charconv) (inp : Bytes)
    (ha : Addressable o inp) :
    (∀ (fuel : Nat) (f : FieldMeta) (t : Ty) (m : D State Unit) (b b' : Build State),
      m ∈ decoders env o cc inp fuel f t → m b = .ok () b' → SkipsTo o cc inp b.reader b'.reader) ∧
    ∀ s t : State, skipValue o cc inp s = .ok () t →
      ∃ n, ∀ fuel, n ≤ fuel → ∃ x u, decodeDom o cc inp fuel s = .ok x u ∧ u.pos = t.pos ∧
        u.depth = t.depth :=
  ⟨fun _ _ _ _ _ _ hm h => (spans_of_decoders ha hm h).skipsTo,
    fun _ _ h => decodeDom_of_skipValue h⟩

theorem skipValue_agrees_array : SkipsTo {} ⟨fun _ => none, fun _ => []⟩ (str "[null, true ],") {}
    { pos := 13 } := by
  have hrun : decodeValue default (reader {} ⟨fun _ => none, fun _ => []⟩ (str "[null, true ],")) 6
    noField
      (.seq .vector (.optional .bool)) { reader := {}, out := .null } =
      .ok () { reader := { pos := 13 }, out := .seq [.null, .some (.bool true)] } := by rfl
  exact (skipValue_agrees default {} ⟨fun _ => none, fun _ => []⟩ (str "[null, true ],")
    ⟨by decide, by decide⟩).1 6 noField
    (.seq .vector (.optional .bool)) _ _ _ List.mem_cons_self hrun

end VCodec.Json
