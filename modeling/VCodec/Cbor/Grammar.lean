import VCodec.Cbor.Head
import VCodec.Core.Lower
import VCodec.Library.ByteOrder
import Mathlib.Data.List.Basic
import Mathlib.Order.Basic

/-!
# Encoded data items

`Item` is a data item as it is encoded, with every choice the encoding leaves open: the width of
each head, the chunks of a string, definite or indefinite containers. `Item.bytes` writes it down.
The elements of an array and the alternating keys and values of a map are one list, as the reader
counts them.

`Sat p max d x` says that every node of `x` satisfies `p` and that containers nest at most `max`
deep, starting at depth `d`. The node conditions are RFC 8949's (`WellFormedNode`), those of its
section 4.2.1 (`CanonicalNode`), and what the reader lets through (`LaxNode`), which differs from
the first in two places: a string chunk may have a reserved head, and the element count of a
definite map is computed modulo `2 ^ 64`.
-/

namespace VCodec.Cbor

/-- The head of a string chunk. A reserved one stands for an empty chunk. -/
inductive ChunkHead
  | definite (h : Head)
  | reserved (ai : Nat)
  deriving DecidableEq

structure Chunk where
  head : ChunkHead
  payload : Bytes
  deriving DecidableEq

inductive Item
  /-- An integer, a simple value or a float. -/
  | leaf (m : Major) (h : Head)
  | str (isText : Bool) (h : Head) (payload : Bytes)
  /-- An indefinite-length string. -/
  | chunked (isText : Bool) (chunks : List Chunk)
  /-- An array or map; without a count it is of indefinite length. -/
  | container (isMap : Bool) (count : Option Head) (xs : List Item)
  | tag (h : Head) (x : Item)

def strMajor (isText : Bool) : Major := if isText then .text else .bytes

def containerMajor (isMap : Bool) : Major := if isMap then .map else .array

theorem strMajor_injective {a b : Bool} (h : strMajor a = strMajor b) : a = b := by
  cases a <;> cases b <;> first | rfl | cases h

theorem containerMajor_injective {a b : Bool} (h : containerMajor a = containerMajor b) :
    a = b := by
  cases a <;> cases b <;> first | rfl | cases h

def ChunkHead.bytes (m : Major) : ChunkHead → Bytes
  | .definite h => h.bytes m
  | .reserved ai => [initialByte m ai]

def Chunk.bytes (m : Major) (c : Chunk) : Bytes := c.head.bytes m ++ c.payload

mutual

def Item.bytes : Item → Bytes
  | .leaf m h => h.bytes m
  | .str isText h payload => h.bytes (strMajor isText) ++ payload
  | .chunked isText chunks =>
    initialByte (strMajor isText) 31 ::
      (chunks.flatMap (Chunk.bytes (strMajor isText)) ++ [breakByte])
  | .container isMap (some h) xs => h.bytes (containerMajor isMap) ++ Item.bytesList xs
  | .container isMap none xs =>
    initialByte (containerMajor isMap) 31 :: (Item.bytesList xs ++ [breakByte])
  | .tag h x => h.bytes .tag ++ x.bytes

def Item.bytesList : List Item → Bytes
  | [] => []
  | x :: xs => x.bytes ++ Item.bytesList xs

end

theorem Item.bytesList_eq (xs : List Item) : Item.bytesList xs = xs.flatMap Item.bytes := by
  induction xs with
  | nil => rfl
  | cons x xs ih => rw [Item.bytesList, ih, List.flatMap_cons]

theorem Item.length_le_of_mem {x : Item} {xs : List Item} (h : x ∈ xs) :
    x.bytes.length ≤ (Item.bytesList xs).length := by
  induction xs with
  | nil => cases h
  | cons y ys ih =>
    rw [Item.bytesList, List.length_append]
    rcases List.mem_cons.1 h with rfl | h
    · exact Nat.le_add_right _ _
    · exact (ih h).trans (Nat.le_add_left _ _)

theorem Item.bytesList_le_bytes (isMap : Bool) (count : Option Head) (xs : List Item) :
    (Item.bytesList xs).length ≤ (Item.container isMap count xs).bytes.length := by
  cases count with
  | none =>
    rw [Item.bytes, List.length_cons, List.length_append]
    omega
  | some h =>
    rw [Item.bytes, List.length_append]
    omega

/-! ### Conditions on the nodes of an item -/

/-- Every node satisfies `p`, and containers stay within `max` from depth `d`. -/
inductive Sat (p : Item → Prop) (max : Nat) : Nat → Item → Prop
  | leaf {d : Nat} {m : Major} {h : Head} (hp : p (.leaf m h)) : Sat p max d (.leaf m h)
  | str {d : Nat} {isText : Bool} {h : Head} {payload : Bytes} (hp : p (.str isText h payload)) :
      Sat p max d (.str isText h payload)
  | chunked {d : Nat} {isText : Bool} {chunks : List Chunk} (hp : p (.chunked isText chunks)) :
      Sat p max d (.chunked isText chunks)
  | container {d : Nat} {isMap : Bool} {count : Option Head} {xs : List Item}
      (hp : p (.container isMap count xs)) (hd : d < max) (hxs : ∀ x ∈ xs, Sat p max (d + 1) x) :
      Sat p max d (.container isMap count xs)
  | tag {d : Nat} {h : Head} {x : Item} (hp : p (.tag h x)) (hx : Sat p max d x) :
      Sat p max d (.tag h x)

theorem Sat.node {p : Item → Prop} {max d : Nat} {x : Item} (h : Sat p max d x) : p x := by
  cases h <;> assumption

theorem Sat.imp {p q : Item → Prop} {max d : Nat} {x : Item} (h : Sat p max d x)
    (hpq : ∀ y, p y → q y) :
    Sat q max d x := by
  induction h with
  | leaf hp => exact .leaf (hpq _ hp)
  | str hp => exact .str (hpq _ hp)
  | chunked hp => exact .chunked (hpq _ hp)
  | container hp hd _ ih => exact .container (hpq _ hp) hd ih
  | tag hp _ ih => exact .tag (hpq _ hp) ih

theorem Sat.and {p q : Item → Prop} {max d : Nat} {x : Item} (hp : Sat p max d x)
    (hq : Sat q max d x) :
    Sat (fun y => p y ∧ q y) max d x := by
  induction hp with
  | leaf hp =>
    cases hq with
    | leaf hq => exact .leaf ⟨hp, hq⟩
  | str hp =>
    cases hq with
    | str hq => exact .str ⟨hp, hq⟩
  | chunked hp =>
    cases hq with
    | chunked hq => exact .chunked ⟨hp, hq⟩
  | container hp hd _ ih =>
    cases hq with
    | container hq _ hxs => exact .container ⟨hp, hq⟩ hd fun x hx => ih x hx (hxs x hx)
  | tag hp _ ih =>
    cases hq with
    | tag hq hx => exact .tag ⟨hp, hq⟩ (ih hx)

/-- The items the skip loop counts for a definite container: twice the pairs of a map, in 64 bits. A
count that wraps to zero is counted down through `2 ^ 64`. -/
def skipCount (isMap : Bool) (n : Nat) : Nat :=
  if n = 0 then 0
  else if isMap then (if 2 * n % 2 ^ 64 = 0 then 2 ^ 64 else 2 * n % 2 ^ 64)
  else n

/-- The value of a float head. -/
def floatOf (ai v : Nat) : Double :=
  if ai = 25 then fromHalf v else if ai = 26 then doubleOfSingle (singleOfBits v) else doubleOfBits
    v

/-- The additional information of the preferred width of a float. -/
def preferredAi (d : Double) : Nat :=
  if (toHalf d).isSome then 25 else if fitsSingle d then 26 else 27

/-- The width of an encoded float is the preferred one. There is one NaN. -/
def PreferredFloat (ai v : Nat) : Prop :=
  if (floatOf ai v).isNan then ai = 25 ∧ v = 0x7E00 else ai = preferredAi (floatOf ai v)

instance (ai v : Nat) : Decidable (PreferredFloat ai v) := by
  unfold PreferredFloat
  infer_instance

/-- The keys of an alternating list strictly increase, the first after `prev`. The list starts at a
key or, if not `keyNext`, at a value. -/
def KeysAscend : Bool → Option Bytes → List Item → Prop
  | _, _, [] => True
  | true, prev, k :: xs => (∀ p ∈ prev, p < k.bytes) ∧ KeysAscend false (some k.bytes) xs
  | false, prev, _ :: xs => KeysAscend true prev xs

/-- What the reader requires of a node whatever its options. -/
def LaxNode : Item → Prop
  | .leaf m h => (m = .uint ∨ m = .nint ∨ m = .simple) ∧ (m = .simple → h.ai = 24 → 32 ≤ h.value)
  | .str _ h payload => payload.length = h.value
  | .chunked _ chunks => ∀ c ∈ chunks, match c.head with
      | .definite h => c.payload.length = h.value
      | .reserved ai => 28 ≤ ai ∧ ai ≤ 30 ∧ c.payload = []
  | .container isMap (some h) xs => xs.length = skipCount isMap h.value
  | .container isMap none xs => isMap = true → xs.length % 2 = 0
  | .tag _ _ => True

/-- A well-formed node of RFC 8949. -/
def WellFormedNode : Item → Prop
  | .leaf m h => (m = .uint ∨ m = .nint ∨ m = .simple) ∧ (m = .simple → h.ai = 24 → 32 ≤ h.value)
  | .str _ h payload => payload.length = h.value
  | .chunked _ chunks => ∀ c ∈ chunks, ∃ h, c.head = .definite h ∧ c.payload.length = h.value
  | .container isMap (some h) xs => xs.length = if isMap then 2 * h.value else h.value
  | .container isMap none xs => isMap = true → xs.length % 2 = 0
  | .tag _ _ => True

/-- Text, and each chunk of it, is valid UTF-8. -/
def Utf8Node : Item → Prop
  | .str true _ payload => Utf8.Valid payload
  | .chunked true chunks => ∀ c ∈ chunks, Utf8.Valid c.payload
  | _ => True

/-- Deterministic encoding: definite lengths, shortest heads, preferred floats, ascending keys. -/
def CanonicalNode : Item → Prop
  | .leaf m h =>
    (m ≠ .simple → h.Shortest) ∧ (m = .simple → 25 ≤ h.ai → PreferredFloat h.ai h.value)
  | .str _ h _ => h.Shortest
  | .chunked _ _ => False
  | .container isMap (some h) xs => h.Shortest ∧ (isMap = true → KeysAscend true none xs)
  | .container _ none _ => False
  | .tag h _ => h.Shortest

/-- The node condition of the reader's generic validator. -/
def SkipNode (validate strict : Bool) (x : Item) : Prop :=
  LaxNode x ∧ (validate = true → Utf8Node x) ∧ (strict = true → CanonicalNode x)

/-! ### The entries of a map -/

/-- The elements of a map with these entries. -/
def alternate (es : List (Item × Item)) : List Item := es.flatMap fun e => [e.1, e.2]

theorem mem_alternate {x : Item} {es : List (Item × Item)} :
    x ∈ alternate es ↔ ∃ e ∈ es, x = e.1 ∨ x = e.2 := by
  simp [alternate]

theorem forall_mem_alternate {p : Item → Prop} {es : List (Item × Item)} :
    (∀ x ∈ alternate es, p x) ↔ ∀ e ∈ es, p e.1 ∧ p e.2 := by
  constructor
  · exact fun h e he =>
      ⟨h _ (mem_alternate.2 ⟨e, he, .inl rfl⟩), h _ (mem_alternate.2 ⟨e, he, .inr rfl⟩)⟩
  · rintro h x hx
    obtain ⟨e, he, rfl | rfl⟩ := mem_alternate.1 hx
    · exact (h e he).1
    · exact (h e he).2

theorem alternate_cons (e : Item × Item) (es : List (Item × Item)) :
    alternate (e :: es) = e.1 :: e.2 :: alternate es := rfl

theorem length_alternate (es : List (Item × Item)) : (alternate es).length = 2 * es.length := by
  induction es with
  | nil => rfl
  | cons e es ih =>
    rw [alternate_cons, List.length_cons, List.length_cons, ih, List.length_cons]
    omega

theorem keysAscend_alternate {es : List (Item × Item)} {prev : Option Bytes}
    (hes : es.Pairwise fun a b => a.1.bytes < b.1.bytes)
    (hprev : ∀ p ∈ prev, ∀ e ∈ es, p < e.1.bytes) :
    KeysAscend true prev (alternate es) := by
  induction es generalizing prev with
  | nil => trivial
  | cons e es ih =>
    rw [List.pairwise_cons] at hes
    refine ⟨fun p hp => hprev p hp e List.mem_cons_self, ih hes.2 fun p hp e' he' => ?_⟩
    rw [Option.mem_some_iff] at hp
    exact hp ▸ hes.1 e' he'

/-! ### Items read off one input are the same -/

theorem Head.bytes_append_inj {m m' : Major} {h h' : Head} {s s' : Bytes}
    (heq : h.bytes m ++ s = h'.bytes m' ++ s') : m = m' ∧ h = h' ∧ s = s' := by
  have hp : parseHead (h.bytes m ++ s) 0 = h.parsed m := parseHead_head rfl
  rw [parseHead_head (m := m') (h := h') (s := s') (by rw [List.drop_zero, heq])] at hp
  simp only [Head.parsed, ParsedHead.mk.injEq] at hp
  obtain ⟨hm, -, hv, -, hsize, -, -⟩ := hp
  have hw : h'.width = h.width := by
    cases hw : h'.width <;> cases hw' : h.width <;> simp_all [Width.size]
  have hh : h = h' := Head.ext_iff.2 ⟨hw.symm, hv.symm⟩
  subst hm hh
  exact ⟨rfl, rfl, List.append_cancel_left heq⟩

theorem Head.bytes_ne_indefinite {m m' : Major} {h : Head} {s s' : Bytes} :
    h.bytes m ++ s ≠ initialByte m' 31 :: s' := by
  intro heq
  rw [Head.bytes, List.cons_append, List.cons.injEq] at heq
  have := (initialByte_inj (lt_trans h.ai_lt (by decide)) (by decide) heq.1).2
  have := h.ai_lt
  omega

theorem Head.bytes_ne_break {m : Major} {h : Head} {s s' : Bytes} :
    h.bytes m ++ s ≠ breakByte :: s' := by
  intro heq
  rw [Head.bytes, List.cons_append, List.cons.injEq] at heq
  exact initialByte_ne_break (lt_trans h.ai_lt (by decide)) heq.1

theorem strMajor_ne_simple (t : Bool) : strMajor t ≠ .simple := by cases t <;> decide

theorem containerMajor_ne_simple (t : Bool) : containerMajor t ≠ .simple := by cases t <;> decide

/-- No item starts with a break. -/
theorem Item.bytes_ne_break {x : Item} {s s' : Bytes} : x.bytes ++ s ≠ breakByte :: s' := by
  cases x with
  | leaf m h => exact Head.bytes_ne_break
  | str t h payload =>
    rw [Item.bytes, List.append_assoc]
    exact Head.bytes_ne_break
  | chunked t chunks =>
    rw [Item.bytes, List.cons_append, ne_eq, List.cons.injEq]
    exact fun h => initialByte_indefinite_ne_break (strMajor_ne_simple t) h.1
  | container t count xs =>
    cases count with
    | some h =>
      rw [Item.bytes, List.append_assoc]
      exact Head.bytes_ne_break
    | none =>
      rw [Item.bytes, List.cons_append, ne_eq, List.cons.injEq]
      exact fun h => initialByte_indefinite_ne_break (containerMajor_ne_simple t) h.1
  | tag h x =>
    rw [Item.bytes, List.append_assoc]
    exact Head.bytes_ne_break

theorem Item.bytes_pos (x : Item) : 0 < x.bytes.length := by
  cases x with
  | leaf m h => simp [Item.bytes, Head.bytes]
  | str t h payload => simp [Item.bytes, Head.bytes]
  | chunked t chunks => simp [Item.bytes]
  | container t count xs => cases count <;> simp [Item.bytes, Head.bytes]
  | tag h x => simp [Item.bytes, Head.bytes]

theorem Item.length_le_bytesList (xs : List Item) : xs.length ≤ (Item.bytesList xs).length := by
  induction xs with
  | nil => exact Nat.zero_le _
  | cons x xs ih =>
    have := x.bytes_pos
    rw [Item.bytesList, List.length_cons, List.length_append]
    omega

/-- The major type and, unless the length is indefinite, the head of an item. -/
def Item.front : Item → Major × Option Head
  | .leaf m h => (m, some h)
  | .str isText h _ => (strMajor isText, some h)
  | .chunked isText _ => (strMajor isText, none)
  | .container isMap count _ => (containerMajor isMap, count)
  | .tag h _ => (.tag, some h)

/-- The bytes after the head. -/
def Item.body : Item → Bytes
  | .leaf _ _ => []
  | .str _ _ payload => payload
  | .chunked isText chunks => chunks.flatMap (Chunk.bytes (strMajor isText)) ++ [breakByte]
  | .container _ (some _) xs => Item.bytesList xs
  | .container _ none xs => Item.bytesList xs ++ [breakByte]
  | .tag _ x => x.bytes

def frontBytes (f : Major × Option Head) : Bytes :=
  match f.2 with
  | some h => h.bytes f.1
  | none => [initialByte f.1 31]

theorem Item.bytes_eq (x : Item) : x.bytes = frontBytes x.front ++ x.body := by
  cases x with
  | leaf m h => simp [Item.bytes, Item.front, Item.body, frontBytes]
  | str t h payload => rfl
  | chunked t chunks => rfl
  | container t count xs => cases count <;> rfl
  | tag h x => rfl

theorem frontBytes_inj {f f' : Major × Option Head} {s s' : Bytes}
    (heq : frontBytes f ++ s = frontBytes f' ++ s') : f = f' ∧ s = s' := by
  obtain ⟨m, c⟩ := f
  obtain ⟨m', c'⟩ := f'
  cases c with
  | some h =>
    cases c' with
    | some h' =>
      obtain ⟨rfl, rfl, rfl⟩ := Head.bytes_append_inj heq
      exact ⟨rfl, rfl⟩
    | none => exact absurd heq Head.bytes_ne_indefinite
  | none =>
    cases c' with
    | some h' => exact absurd heq.symm Head.bytes_ne_indefinite
    | none =>
      rw [frontBytes, frontBytes, List.singleton_append, List.singleton_append,
        List.cons.injEq] at heq
      obtain ⟨rfl, -⟩ := initialByte_inj (by decide) (by decide) heq.1
      exact ⟨rfl, heq.2⟩

theorem Head.bytes_inj {m : Major} {h h' : Head} (heq : h.bytes m = h'.bytes m) : h = h' := by
  have hfront : frontBytes (m, some h) ++ [] = frontBytes (m, some h') ++ [] :=
    congrArg (· ++ []) heq
  exact Option.some.inj (Prod.ext_iff.1 (frontBytes_inj hfront).1).2

private theorem chunk_inj {m : Major} {t : Bool} {c c' : Chunk} {s s' : Bytes}
    (hc : LaxNode (.chunked t [c])) (hc' : LaxNode (.chunked t [c']))
    (heq : c.bytes m ++ s = c'.bytes m ++ s') : c = c' ∧ s = s' := by
  obtain ⟨k, p⟩ := c
  obtain ⟨k', p'⟩ := c'
  simp only [LaxNode, List.mem_singleton, forall_eq] at hc hc'
  simp only [Chunk.bytes, List.append_assoc] at heq
  cases k with
  | definite h =>
    cases k' with
    | definite h' =>
      obtain ⟨-, rfl, heq'⟩ := Head.bytes_append_inj heq
      obtain ⟨rfl, rfl⟩ := List.append_inj heq' (by simp only at hc hc'; omega)
      exact ⟨rfl, rfl⟩
    | reserved ai =>
      exfalso
      simp only [ChunkHead.bytes, Head.bytes, List.cons_append, List.cons.injEq] at heq
      have := (initialByte_inj (lt_trans h.ai_lt (by decide)) (by omega) heq.1).2
      have := h.ai_lt
      omega
  | reserved ai =>
    cases k' with
    | definite h' =>
      exfalso
      simp only [ChunkHead.bytes, Head.bytes, List.cons_append, List.cons.injEq] at heq
      have := (initialByte_inj (by omega) (lt_trans h'.ai_lt (by decide)) heq.1).2
      have := h'.ai_lt
      omega
    | reserved ai' =>
      rw [ChunkHead.bytes, ChunkHead.bytes, List.singleton_append, List.singleton_append,
        List.cons.injEq] at heq
      obtain ⟨-, rfl⟩ := initialByte_inj (by omega) (by omega) heq.1
      obtain ⟨-, -, rfl⟩ := hc
      obtain ⟨-, -, rfl⟩ := hc'
      exact ⟨rfl, heq.2⟩

theorem chunk_bytes_ne_break
    {m : Major} {t : Bool} {c : Chunk} {s s' : Bytes} (hc : LaxNode (.chunked t [c])) :
    c.bytes m ++ s ≠ breakByte :: s' := by
  obtain ⟨k, p⟩ := c
  simp only [LaxNode, List.mem_singleton, forall_eq] at hc
  cases k with
  | definite h =>
    rw [Chunk.bytes, List.append_assoc]
    exact Head.bytes_ne_break
  | reserved ai =>
    simp only [Chunk.bytes, ChunkHead.bytes, List.cons_append, ne_eq, List.cons.injEq]
    exact fun h => initialByte_ne_break (by omega) h.1

theorem laxNode_chunked_cons {t : Bool} {c : Chunk} {cs : List Chunk} :
    LaxNode (.chunked t (c :: cs)) ↔ LaxNode (.chunked t [c]) ∧ LaxNode (.chunked t cs) := by
  simp [LaxNode]

private theorem chunks_inj {m : Major} {t : Bool} {cs cs' : List Chunk} {s s' : Bytes}
    (hcs : LaxNode (.chunked t cs)) (hcs' : LaxNode (.chunked t cs'))
    (heq : cs.flatMap (Chunk.bytes m) ++ breakByte :: s = cs'.flatMap (Chunk.bytes m) ++
      breakByte :: s') :
    cs = cs' ∧ s = s' := by
  induction cs generalizing cs' with
  | nil =>
    cases cs' with
    | nil => simpa using heq
    | cons c' cs' =>
      rw [laxNode_chunked_cons] at hcs'
      rw [List.flatMap_nil, List.nil_append, List.flatMap_cons, List.append_assoc] at heq
      exact absurd heq.symm (chunk_bytes_ne_break hcs'.1)
  | cons c cs ih =>
    rw [laxNode_chunked_cons] at hcs
    cases cs' with
    | nil =>
      rw [List.flatMap_nil, List.nil_append, List.flatMap_cons, List.append_assoc] at heq
      exact absurd heq (chunk_bytes_ne_break hcs.1)
    | cons c' cs' =>
      rw [laxNode_chunked_cons] at hcs'
      rw [List.flatMap_cons, List.flatMap_cons, List.append_assoc, List.append_assoc] at heq
      obtain ⟨rfl, heq'⟩ := chunk_inj hcs.1 hcs'.1 heq
      obtain ⟨rfl, rfl⟩ := ih hcs.2 hcs'.2 heq'
      exact ⟨rfl, rfl⟩

/-- `x` is the only item that an input starting with its bytes can start with. -/
def Unambiguous (x : Item) : Prop :=
  ∀ (y : Item) (max d : Nat) (s s' : Bytes), Sat LaxNode max d y → x.bytes ++ s = y.bytes ++ s' →
    x = y ∧ s = s'

private theorem bytesList_inj
    {xs ys : List Item} {max d : Nat} {s s' : Bytes} (hxs : ∀ x ∈ xs, Unambiguous x)
    (hys : ∀ y ∈ ys, Sat LaxNode max d y) (hlen : xs.length = ys.length)
    (heq : Item.bytesList xs ++ s = Item.bytesList ys ++ s') : xs = ys ∧ s = s' := by
  induction xs generalizing ys with
  | nil =>
    rw [List.length_nil, eq_comm, List.length_eq_zero_iff] at hlen
    subst hlen
    exact ⟨rfl, heq⟩
  | cons x xs ih =>
    cases ys with
    | nil => cases hlen
    | cons y ys =>
      rw [Item.bytesList, Item.bytesList, List.append_assoc, List.append_assoc] at heq
      obtain ⟨rfl, heq'⟩ := hxs x List.mem_cons_self y max d _ _ (hys y List.mem_cons_self) heq
      obtain ⟨rfl, rfl⟩ := ih (fun z hz => hxs z (List.mem_cons_of_mem _ hz))
        (fun z hz => hys z (List.mem_cons_of_mem _ hz)) (Nat.succ_injective hlen) heq'
      exact ⟨rfl, rfl⟩

private theorem bytesList_break_inj {xs ys : List Item} {max d : Nat} {s s' : Bytes}
    (hxs : ∀ x ∈ xs, Unambiguous x) (hys : ∀ y ∈ ys, Sat LaxNode max d y)
    (heq : Item.bytesList xs ++ breakByte :: s = Item.bytesList ys ++ breakByte :: s') :
    xs = ys ∧ s = s' := by
  induction xs generalizing ys with
  | nil =>
    cases ys with
    | nil => simpa [Item.bytesList] using heq
    | cons y ys =>
      rw [Item.bytesList, List.nil_append, Item.bytesList, List.append_assoc] at heq
      exact absurd heq.symm Item.bytes_ne_break
  | cons x xs ih =>
    cases ys with
    | nil =>
      rw [Item.bytesList, Item.bytesList, List.nil_append, List.append_assoc] at heq
      exact absurd heq Item.bytes_ne_break
    | cons y ys =>
      rw [Item.bytesList, Item.bytesList, List.append_assoc, List.append_assoc] at heq
      obtain ⟨rfl, heq'⟩ := hxs x List.mem_cons_self y max d _ _ (hys y List.mem_cons_self) heq
      obtain ⟨rfl, rfl⟩ := ih (fun z hz => hxs z (List.mem_cons_of_mem _ hz))
        (fun z hz => hys z (List.mem_cons_of_mem _ hz)) heq'
      exact ⟨rfl, rfl⟩

/-- Integers and simple items, strings, containers, tags. -/
def Major.sort : Major → Nat
  | .uint | .nint | .simple => 0
  | .bytes | .text => 1
  | .array | .map => 2
  | .tag => 3

def Item.sort : Item → Nat
  | .leaf _ _ => 0
  | .str _ _ _ | .chunked _ _ => 1
  | .container _ _ _ => 2
  | .tag _ _ => 3

theorem LaxNode.sort_front {x : Item} (hx : LaxNode x) : x.front.1.sort = x.sort := by
  cases x with
  | leaf m h => obtain ⟨rfl | rfl | rfl, -⟩ := hx <;> rfl
  | str t h payload => cases t <;> rfl
  | chunked t chunks => cases t <;> rfl
  | container t count xs => cases t <;> rfl
  | tag h x => rfl

theorem LaxNode.same_front {x y : Item} {s s' : Bytes} (hx : LaxNode x) (hy : LaxNode y)
    (heq : x.bytes ++ s = y.bytes ++ s') :
    x.front = y.front ∧ x.sort = y.sort ∧ x.body ++ s = y.body ++ s' := by
  rw [Item.bytes_eq, Item.bytes_eq, List.append_assoc, List.append_assoc] at heq
  obtain ⟨hfront, hbody⟩ := frontBytes_inj heq
  exact ⟨hfront, by rw [← hx.sort_front, hfront, hy.sort_front], hbody⟩

/-- The bytes of an item determine it, and where it ends. -/
theorem Sat.unambiguous {x : Item} {max d : Nat} (hx : Sat LaxNode max d x) : Unambiguous x := by
  induction hx with
  | leaf hp =>
    intro y max' d' s s' hy heq
    obtain ⟨hfront, hsort, hbody⟩ := hp.same_front hy.node heq
    cases hy with
    | leaf hq =>
      simp only [Item.front, Prod.mk.injEq, Option.some.injEq] at hfront
      obtain ⟨rfl, rfl⟩ := hfront
      exact ⟨rfl, hbody⟩
    | _ => cases hsort
  | str hp =>
    intro y max' d' s s' hy heq
    obtain ⟨hfront, hsort, hbody⟩ := hp.same_front hy.node heq
    cases hy with
    | str hq =>
      simp only [Item.front, Prod.mk.injEq, Option.some.injEq] at hfront
      obtain ⟨ht, rfl⟩ := hfront
      obtain rfl := strMajor_injective ht
      obtain ⟨rfl, rfl⟩ := List.append_inj hbody (by
        simp only [LaxNode] at hp hq
        simp only [Item.body]
        omega)
      exact ⟨rfl, rfl⟩
    | chunked hq => simp [Item.front] at hfront
    | _ => cases hsort
  | chunked hp =>
    intro y max' d' s s' hy heq
    obtain ⟨hfront, hsort, hbody⟩ := hp.same_front hy.node heq
    cases hy with
    | str hq => simp [Item.front] at hfront
    | chunked hq =>
      simp only [Item.front, Prod.mk.injEq, and_true] at hfront
      obtain rfl := strMajor_injective hfront
      simp only [Item.body, List.append_assoc, List.singleton_append] at hbody
      obtain ⟨rfl, rfl⟩ := chunks_inj hp hq hbody
      exact ⟨rfl, rfl⟩
    | _ => cases hsort
  | @container _ _ count xs hp _ _ ih =>
    intro y max' d' s s' hy heq
    obtain ⟨hfront, hsort, hbody⟩ := hp.same_front hy.node heq
    cases hy with
    | @container _ _ count' ys hq _ hys =>
      simp only [Item.front, Prod.mk.injEq] at hfront
      obtain ⟨ht, rfl⟩ := hfront
      obtain rfl := containerMajor_injective ht
      cases count with
      | some h =>
        obtain ⟨rfl, rfl⟩ := bytesList_inj ih hys (hp.trans hq.symm) hbody
        exact ⟨rfl, rfl⟩
      | none =>
        simp only [Item.body, List.append_assoc, List.singleton_append] at hbody
        obtain ⟨rfl, rfl⟩ := bytesList_break_inj ih hys hbody
        exact ⟨rfl, rfl⟩
    | _ => cases hsort
  | tag hp _ ih =>
    intro y max' d' s s' hy heq
    obtain ⟨hfront, hsort, hbody⟩ := hp.same_front hy.node heq
    cases hy with
    | tag hq hx =>
      simp only [Item.front, Prod.mk.injEq, Option.some.injEq, true_and] at hfront
      subst hfront
      obtain ⟨rfl, rfl⟩ := ih _ _ _ _ _ hx hbody
      exact ⟨rfl, rfl⟩
    | _ => cases hsort

end VCodec.Cbor
