import VCodec.Json.Skip

/-!
# The grammar is unambiguous

A text of the grammar denotes one tree, whatever the depth and the options it is read with. Where a
value ends is known from the validator; what stands between the brackets is compared by induction on
the derivation.
-/

namespace VCodec.Json

variable {o : Options} {cc : Charconv}

/-- Blanks end where something else begins. -/
theorem Blank.same {ws ws' tail tail' : Bytes} (hws : Blank ws) (hws' : Blank ws')
    (h : ∀ c ∈ tail.head?, isWs c = false) (h' : ∀ c ∈ tail'.head?, isWs c = false)
    (heq : ws ++ tail = ws' ++ tail') : ws = ws' ∧ tail = tail' := by
  have htake : ∀ {ws tail : Bytes}, Blank ws → (∀ c ∈ tail.head?, isWs c = false) →
    (ws ++ tail).takeWhile isWs = ws := by
    intro ws tail hws htail
    rw [List.takeWhile_append_of_pos hws]
    cases tail with
    | nil => simp
    | cons c tail => simp [htail c rfl]
  have hblanks := htake hws h
  rw [heq, htake hws' h'] at hblanks
  cases hblanks
  exact ⟨rfl, List.append_cancel_left heq⟩

theorem Begins.head {bs : Bytes} (h : Begins bs) : ∀ c ∈ bs.head?, isWs c = false := by
  obtain ⟨c, cs, rfl, hc, -⟩ := h
  intro x hx
  cases hx
  exact hc

/-! ### Tokens -/

theorem Number.ext_bytes {n n' : Number} (h : n.bytes = n'.bytes) : n = n' := by
  have hparts := Number.parts_congr h
  obtain ⟨minus, int, frac, exp, _, _, _, _⟩ := n
  obtain ⟨minus', int', frac', exp', _, _, _, _⟩ := n'
  simp only [Number.parts, Parts.mk.injEq] at hparts
  obtain ⟨hminus, hint, hfrac, -⟩ := hparts
  obtain ⟨rfl, h⟩ := List.append_inj h hminus
  obtain ⟨rfl, h⟩ := List.append_inj h hint
  obtain ⟨rfl, rfl⟩ := List.append_inj h hfrac
  rfl

/-- Where a string ends, and what it stands for. -/
theorem Quoted.same {k k' t t' r r' : Bytes} (h : Quoted o k t) (h' : Quoted o k' t')
    (heq : k ++ r = k' ++ r') :
    k = k' ∧ t = t' := by
  obtain ⟨x, hparse, rfl⟩ := @Quoted.parseString o (k ++ r) {} k t r h rfl
  obtain ⟨x', hparse', rfl⟩ := @Quoted.parseString o (k ++ r) {} k' t' r' h' heq
  rw [hparse] at hparse'
  obtain ⟨rfl, hstate⟩ := EStateM.Result.ok.inj hparse'
  exact ⟨List.append_inj_left heq (by simpa [State.advance] using hstate), rfl⟩

/-! ### Values -/

/-- What kind of a tree it is, and which word or which container. -/
inductive Shape
  | null | boolean (b : Bool) | number | text | container (isObject : Bool)

def Tree.shape : Tree → Shape
  | .null => .null
  | .boolean b => .boolean b
  | .number _ => .number
  | .text _ => .text
  | .container b _ => .container b

/-- The first byte of a value tells its shape. -/
def shapeOf (c : UInt8) : Shape :=
  if c = 0x2D ∨ isDigit c = true then .number
  else if c = 0x22 then .text
  else if c = 0x74 then .boolean true
  else if c = 0x66 then .boolean false
  else if c = 0x6E then .null
  else .container (c = 0x7B)

theorem value_shape {d : Nat} {v : Bytes} {x : Tree} (h : Value o cc d v x) :
    ∃ c ∈ v.head?, x.shape = shapeOf c := by
  cases h with
  | word h => cases h <;> exact ⟨_, rfl, rfl⟩
  | number n _ =>
    obtain ⟨c, cs, hcons, hc⟩ := n.exists_cons
    rw [hcons]
    exact ⟨c, rfl, (if_pos hc).symm⟩
  | text h =>
    cases h
    exact ⟨_, rfl, rfl⟩
  | @empty _ b _ _ _ => cases b <;> exact ⟨_, rfl, rfl⟩
  | @full _ b _ _ _ _ _ _ _ => cases b <;> exact ⟨_, rfl, rfl⟩

theorem shape_congr {d : Nat} {v : Bytes} {x y : Tree} (h : Value o cc d v x)
    (h' : Value o cc d v y) : y.shape = x.shape := by
  obtain ⟨c, hc, hx⟩ := value_shape h
  obtain ⟨c', hc', hy⟩ := value_shape h'
  rw [hx, hy, Option.mem_unique hc hc']

theorem value_number {d : Nat} {v : Bytes} {n : Number} (h : Value o cc d v (.number n)) :
    v = n.bytes := by
  cases h with
  | word h => cases h
  | number _ _ => rfl

theorem value_text {d : Nat} {v t : Bytes} (h : Value o cc d v (.text t)) : Quoted o v t := by
  cases h with
  | word h => cases h
  | text h => exact h

/-- Where a value ends. -/
theorem value_end {d : Nat} {v v' r r' : Bytes} {x x' : Tree} (h : Value o cc d v x)
    (h' : Value o cc d v' x') (hcut : Uncut v r) (hcut' : Uncut v' r') (heq : v ++ r = v' ++ r') :
    v = v' := by
  have hskip := @skipValue_at o cc (v ++ r) { depth := d } [] v r x rfl blank_nil h hcut
  have hskip' := @skipValue_at o cc (v ++ r) { depth := d } [] v' r' x' heq blank_nil h' hcut'
  rw [hskip] at hskip'
  exact List.append_inj_left heq (by simpa [State.advance] using hskip')

theorem entry_end {k k' key key' ws ws' ws₁ ws₁' v v' r r' : Bytes} (hk : Quoted o k key)
    (hk' : Quoted o k' key') (hws : Blank ws) (hws' : Blank ws') (hws₁ : Blank ws₁)
    (hws₁' : Blank ws₁') (hv : Begins v) (hv' : Begins v')
    (heq : k ++ (ws ++ 0x3A :: (ws₁ ++ v)) ++ r = k' ++ (ws' ++ 0x3A :: (ws₁' ++ v')) ++ r') :
    k = k' ∧ key = key' ∧ ws = ws' ∧ ws₁ = ws₁' ∧ v ++ r = v' ++ r' := by
  simp only [List.append_assoc, List.cons_append] at heq
  obtain ⟨rfl, rfl⟩ := hk.same hk' heq
  have hcolon : ∀ (tail : Bytes), ∀ c ∈ (0x3A :: tail).head?, isWs c = false := by
    intro tail c hc
    cases hc
    rfl
  obtain ⟨rfl, hvalue⟩ := hws.same hws' (hcolon _) (hcolon _) (List.append_cancel_left heq)
  obtain ⟨rfl, hrest⟩ :=
    hws₁.same hws₁' (hv.append _).head (hv'.append _).head (List.tail_eq_of_cons_eq hvalue)
  exact ⟨rfl, rfl, rfl, rfl, hrest⟩

/-- Where a member ends. -/
theorem member_end {b : Bool} {d : Nat} {x x' r r' : Bytes} {ms ms' : List (Option Bytes × Tree)}
    (h : Derives o cc (.member b) d x ms) (h' : Derives o cc (.member b) d x' ms')
    (hr : Delimits r) (hr' : Delimits r') (heq : x ++ r = x' ++ r') : x = x' := by
  cases h with
  | element hws hv =>
    cases h' with
    | element hws' hv' =>
      simp only [List.append_assoc] at heq
      obtain ⟨rfl, hrest⟩ := hws.same hws' (hv.begins.append _).head (hv'.begins.append _).head heq
      rw [value_end hv hv' (hr.uncut _) (hr'.uncut _) hrest]
  | entry hws hk hcolon hvalue hv =>
    cases h' with
    | entry hws' hk' hcolon' hvalue' hv' =>
      rw [List.append_assoc _ _ r, List.append_assoc _ _ r'] at heq
      obtain ⟨rfl, hentry⟩ :=
        hws.same hws' ((hk.begins.append _).append _).head ((hk'.begins.append _).append _).head heq
      obtain ⟨rfl, rfl, rfl, rfl, hrest⟩ :=
        entry_end hk hk' hcolon hcolon' hvalue hvalue' hv.begins hv'.begins hentry
      rw [value_end hv hv' (hr.uncut _) (hr'.uncut _) hrest]

theorem value_single {d : Nat} {v : Bytes} {ms : List (Option Bytes × Tree)}
    (h : Derives o cc .value d v ms) :
    ∃ x, ms = [(none, x)] := by
  cases h <;> exact ⟨_, rfl⟩

theorem value_container {b : Bool} {d : Nat} {v : Bytes} {ms : List (Option Bytes × Tree)}
    (h : Value o cc d v (.container b ms)) :
    (∃ ws, Blank ws ∧ v = openByte b :: (ws ++ [closeByte b]) ∧ ms = []) ∨
      ∃ x y m ms', v = openByte b :: (x ++ y) ∧ ms = m :: ms' ∧
        Derives o cc (.member b) (d + 1) x [m] ∧
        Derives o cc (.rest b) (d + 1) y ms' := by
  cases h with
  | word h => cases h
  | empty hws _ => exact .inl ⟨_, hws, rfl, rfl⟩
  | full _ hx hy => exact .inr ⟨_, _, _, _, rfl, rfl, hx, hy⟩

theorem rest_inv {b : Bool} {d : Nat} {y : Bytes} {ms : List (Option Bytes × Tree)}
    (h : Derives o cc (.rest b) d y ms) :
    (∃ ws, Blank ws ∧ y = ws ++ [closeByte b] ∧ ms = []) ∨
      ∃ ws x z m ms', Blank ws ∧ y = ws ++ 0x2C :: (x ++ z) ∧ ms = m :: ms' ∧
        Derives o cc (.member b) d x [m] ∧
        Derives o cc (.rest b) d z ms' := by
  cases h with
  | close hws => exact .inl ⟨_, hws, rfl, rfl⟩
  | comma hws hx hy => exact .inr ⟨_, _, _, _, _, hws, rfl, rfl, hx, hy⟩

theorem element_inv {d : Nat} {a : Bytes} {ms : List (Option Bytes × Tree)}
    (h : Derives o cc (.member false) d a ms) :
    ∃ ws v x, Blank ws ∧ a = ws ++ v ∧ ms = [(none, x)] ∧ Value o cc d v x := by
  cases h with
  | element hws hv => exact ⟨_, _, _, hws, rfl, rfl, hv⟩

theorem entry_inv {d : Nat} {a : Bytes} {ms : List (Option Bytes × Tree)}
    (h : Derives o cc (.member true) d a ms) :
    ∃ ws k key ws₁ ws₂ v x, Blank ws ∧ a = ws ++ (k ++ (ws₁ ++ 0x3A :: (ws₂ ++ v))) ∧
      ms = [(some key, x)] ∧ Quoted o k key ∧
      Blank ws₁ ∧ Blank ws₂ ∧ Value o cc d v x := by
  cases h with
  | entry hws hk hws₁ hws₂ hv => exact ⟨_, _, _, _, _, _, _, hws, rfl, rfl, hk, hws₁, hws₂, hv⟩

theorem closeByte_not_ws (b : Bool) : ∀ c ∈ ([closeByte b] : Bytes).head?, isWs c = false := by
  intro c hc
  cases hc
  cases b <;> rfl

/-- No member stands in an empty container. -/
theorem member_not_empty {b b' : Bool} {d : Nat} {ws x y : Bytes} {ms : List (Option Bytes × Tree)}
    (hws : Blank ws) (hx : Derives o cc (.member b) d x ms) : ws ++ [closeByte b'] ≠ x ++ y := by
  obtain ⟨ws', tail, rfl, hws', htail⟩ := hx.begins
  rw [List.append_assoc]
  intro heq
  have hend := (hws.same hws' (closeByte_not_ws b') (htail.append y).head heq).2
  obtain ⟨c, cs, rfl, -, hbrace, hbracket⟩ := htail
  have hc : closeByte b' = c := List.head_eq_of_cons_eq hend
  cases b' with
  | false => exact hbracket hc.symm
  | true => exact hbrace hc.symm

/-- What stands behind a member, up to the bracket or the comma. -/
theorem comma_not_close {b : Bool} {ws ws' tail : Bytes} (hws : Blank ws) (hws' : Blank ws') :
    ws ++ [closeByte b] ≠ ws' ++ 0x2C :: tail := by
  intro heq
  have hcomma : ∀ c ∈ (0x2C :: tail : Bytes).head?, isWs c = false := by
    intro c hc
    cases hc
    rfl
  have hend := (hws.same hws' (closeByte_not_ws b) hcomma heq).2
  cases b with
  | false => cases List.head_eq_of_cons_eq hend
  | true => cases List.head_eq_of_cons_eq hend

/-- One text, one tree. -/
theorem Derives.unique {p : Phrase} {d : Nat} {a : Bytes} {ms ms' : List (Option Bytes × Tree)}
    (h : Derives o cc p d a ms) (h' : Derives o cc p d a ms') : ms = ms' := by
  induction h generalizing ms' with
  | @word d w x h =>
    obtain ⟨y, rfl⟩ := value_single h'
    have hshape := shape_congr (.word h) h'
    cases h with
    | null =>
      cases y with
      | null => rfl
      | _ => cases hshape
    | true =>
      cases y with
      | boolean b =>
        cases hshape
        rfl
      | _ => cases hshape
    | false =>
      cases y with
      | boolean b =>
        cases hshape
        rfl
      | _ => cases hshape
  | number n hn =>
    obtain ⟨y, rfl⟩ := value_single h'
    have hshape := shape_congr (.number n hn) h'
    cases y with
    | number n' => rw [Number.ext_bytes (value_number h')]
    | _ => cases hshape
  | text h =>
    obtain ⟨y, rfl⟩ := value_single h'
    have hshape := shape_congr (.text h) h'
    cases y with
    | text t' => rw [(@Quoted.same o _ _ _ _ [] [] h (value_text h') rfl).2]
    | _ => cases hshape
  | @empty d b ws hws hroom =>
    obtain ⟨y, rfl⟩ := value_single h'
    have hshape := shape_congr (.empty hws hroom) h'
    cases y with
    | container b' ms' =>
      obtain rfl : b' = b := Shape.container.inj hshape
      rcases value_container h' with ⟨ws', -, -, rfl⟩ | ⟨x, y, m, ms', heq, -, hx, -⟩
      · rfl
      · exact absurd (List.tail_eq_of_cons_eq heq) (member_not_empty hws hx)
    | _ => cases hshape
  | @full d b x y m ms hroom hx hy ihx ihy =>
    obtain ⟨z, rfl⟩ := value_single h'
    have hshape := shape_congr (.full hroom hx hy) h'
    cases z with
    | container b' ms' =>
      obtain rfl : b' = b := Shape.container.inj hshape
      rcases value_container h' with ⟨ws', hws', heq, -⟩ | ⟨x', y', m', ms', heq, rfl, hx', hy'⟩
      · exact absurd (List.tail_eq_of_cons_eq heq).symm (member_not_empty hws' hx)
      · have heq : x ++ (y ++ []) = x' ++ (y' ++ []) := by
          rw [List.append_nil, List.append_nil]
          exact List.tail_eq_of_cons_eq heq
        obtain rfl := member_end hx hx' (hy.delimits []) (hy'.delimits []) heq
        rw [List.append_nil, List.append_nil] at heq
        obtain rfl := List.append_cancel_left heq
        rw [List.singleton_inj.1 (ihx hx'), ihy hy']
    | _ => cases hshape
  | @element d ws v x hws hv ih =>
    obtain ⟨ws', v', x', hws', heq, rfl, hv'⟩ := element_inv h'
    obtain ⟨rfl, rfl⟩ := hws.same hws' hv.begins.head hv'.begins.head heq
    exact ih hv'
  | @entry d ws k key ws₁ ws₂ v x hws hk hws₁ hws₂ hv ih =>
    obtain ⟨ws', k', key', ws₁', ws₂', v', x', hws', heq, rfl, hk', hws₁', hws₂', hv'⟩ :=
      entry_inv h'
    obtain ⟨rfl, hentry⟩ := hws.same hws' (hk.begins.append _).head (hk'.begins.append _).head heq
    obtain ⟨-, rfl, -, -, hvalue⟩ :=
      @entry_end o k k' key key' ws₁ ws₁' ws₂ ws₂' v v' [] [] hk hk' hws₁ hws₁' hws₂ hws₂' hv.begins
      hv'.begins (by rw [List.append_nil, List.append_nil, hentry])
    rw [List.append_nil, List.append_nil] at hvalue
    obtain rfl := hvalue
    have hx := List.singleton_inj.1 (ih hv')
    rw [Prod.mk.injEq] at hx
    rw [hx.2]
  | @close d b ws hws =>
    rcases rest_inv h' with ⟨ws', -, -, rfl⟩ | ⟨ws', x, z, m, ms', hws', heq, -⟩
    · rfl
    · exact absurd heq (comma_not_close hws hws')
  | @comma d b ws x y m ms hws hx hy ihx ihy =>
    rcases rest_inv h' with ⟨ws', hws', heq, -⟩ | ⟨ws', x', z, m', ms', hws', heq, rfl, hx', hz⟩
    · exact absurd heq.symm (comma_not_close hws' hws)
    · have heq :=
        (hws.same hws' (fun c hc => by cases hc; rfl) (fun c hc => by cases hc; rfl) heq).2
      have heq : x ++ (y ++ []) = x' ++ (z ++ []) := by
        rw [List.append_nil, List.append_nil]
        exact List.tail_eq_of_cons_eq heq
      obtain rfl := member_end hx hx' (hy.delimits []) (hz.delimits []) heq
      rw [List.append_nil, List.append_nil] at heq
      obtain rfl := List.append_cancel_left heq
      rw [List.singleton_inj.1 (ihx hx'), ihy hz]

end VCodec.Json
