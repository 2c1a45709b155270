import VCodec.Core.Keys
import VCodec.Core.Traverse

/-!
# Enumerators

Encoding looks an enumerator up by its value, decoding by its name or its value. The audit does not
look at enumerators, so several may share a value, and names may clash. `enum_integer_iff` says for
which enums and values the two directions agree in the integer form, `find_name_iff` when the name
of one finds it again.
-/

namespace VCodec

open D

/-! ### The table of names -/

def Enumerator.names (en : Enumerator) : List Bytes := en.name :: en.aliases

/-- The entries of the enumerators from index `n` on. A skipped one has none. -/
def enumEntries (n : Nat) (ens : List Enumerator) : List LookupEntry :=
  (ens.zipIdx n).flatMap fun (en, i) => if en.skipped then [] else en.names.map fun k => ⟨k, i⟩

/-- `build_enum_lookup`. -/
def EnumDef.lookup (e : EnumDef) : LookupTable := buildLookup (enumEntries 0 e.enumerators)

theorem enumEntries_cons (n : Nat) (en : Enumerator) (ens : List Enumerator) :
    enumEntries n (en :: ens) =
      (if en.skipped then [] else en.names.map fun k => ⟨k, n⟩) ++ enumEntries (n + 1) ens := by
  rw [enumEntries, List.zipIdx_cons, List.flatMap_cons]
  rfl

theorem le_index_of_mem {n : Nat} {ens : List Enumerator} {x : LookupEntry}
    (h : x ∈ enumEntries n ens) : n ≤ x.index := by
  obtain ⟨⟨en, i⟩, hen, hx⟩ := List.mem_flatMap.1 h
  have hle := (List.mem_zipIdx hen).1
  dsimp only at hx
  split at hx
  · cases hx
  · obtain ⟨k, -, rfl⟩ := List.mem_map.1 hx
    exact hle

theorem pairwise_enumEntries (n : Nat) (ens : List Enumerator) :
    (enumEntries n ens).Pairwise fun a b => a.index ≤ b.index := by
  induction ens generalizing n with
  | nil => exact List.Pairwise.nil
  | cons en ens ih =>
    rw [enumEntries_cons]
    have hindex : ∀ x ∈ (if en.skipped then [] else en.names.map fun k => LookupEntry.mk k n),
      x.index = n := by
      intro x hx
      split at hx
      · cases hx
      · obtain ⟨k, -, rfl⟩ := List.mem_map.1 hx
        rfl
    refine List.pairwise_append.2 ⟨?_, ih (n + 1), fun x hx y hy => ?_⟩
    · exact List.Pairwise.imp_of_mem (fun hx hy _ => by rw [hindex _ hx, hindex _ hy])
        (List.pairwise_of_forall (fun _ _ => trivial))
    · have hle := le_index_of_mem hy
      rw [hindex x hx]
      omega

theorem scan_names (n : Nat) (names : List Bytes) (es : List LookupEntry) (k : Bytes) :
    scan (names.map (fun name => LookupEntry.mk name n) ++ es) k =
      if k ∈ names then some n else scan es k := by
  induction names with
  | nil => rfl
  | cons name names ih =>
    rw [List.map_cons, List.cons_append, scan_cons, ih]
    by_cases h : name = k
    · simp [h]
    · have hne : ¬ k = name := fun heq => h heq.symm
      simp [h, hne]

theorem scan_index {n : Nat} {ens : List Enumerator} {k : Bytes} {i : Nat}
    (h : scan (enumEntries n ens) k = some i) :
    n ≤ i := by
  obtain ⟨x, hx, rfl⟩ := Option.map_eq_some_iff.1 h
  exact le_index_of_mem (List.mem_of_find?_eq_some hx)

/-- The table leads a text to the first enumerator of that name, whatever names clash. -/
theorem find_enumLookup (e : EnumDef) (k : Bytes) :
    ((e.lookup.find k).bind fun i => e.enumerators[i]?) = e.find k := by
  have hord := (pairwise_enumEntries 0 e.enumerators).imp fun {a b : LookupEntry}
    (h : a.index ≤ b.index) (_ : a.key = b.key) => h
  rw [EnumDef.lookup, find_buildLookup_eq hord, EnumDef.find]
  have hfrom : ∀ (ens : List Enumerator) (n : Nat),
    ((scan (enumEntries n ens) k).bind fun i => ens[i - n]?) =
      ens.find? fun en => ¬ en.skipped ∧ (en.name = k ∨ k ∈ en.aliases) := by
    intro ens
    induction ens with
    | nil => exact fun n => rfl
    | cons en ens ih =>
      intro n
      have hrest : ((scan (enumEntries (n + 1) ens) k).bind fun i => (en :: ens)[i - n]?) =
          ens.find? fun en => ¬ en.skipped ∧ (en.name = k ∨ k ∈ en.aliases) := by
        rw [← ih (n + 1)]
        cases hscan : scan (enumEntries (n + 1) ens) k with
        | none => rfl
        | some i =>
          have hle := scan_index hscan
          show (en :: ens)[i - n]? = ens[i - (n + 1)]?
          rw [show i - n = i - (n + 1) + 1 by omega, List.getElem?_cons_succ]
      rw [enumEntries_cons, List.find?_cons]
      cases hskip : en.skipped with
      | true =>
        rw [if_pos rfl, List.nil_append, hrest]
        simp
      | false =>
        rw [if_neg Bool.false_ne_true, scan_names]
        by_cases hk : k ∈ en.names
        · have hname : en.name = k ∨ k ∈ en.aliases := by
            rcases List.mem_cons.1 hk with rfl | h
            · exact .inl rfl
            · exact .inr h
          simp [hk, hname]
        · have hname : ¬ (en.name = k ∨ k ∈ en.aliases) := by
            rintro (rfl | h)
            · exact hk List.mem_cons_self
            · exact hk (List.mem_cons_of_mem _ h)
          rw [if_neg hk, hrest]
          simp [hname]
  exact hfrom e.enumerators 0

/-! ### What the two directions do -/

/-- The value is one of an enumerator that is not skipped. -/
def EnumDef.Offers (e : EnumDef) (v : Int) : Prop :=
  ∃ en ∈ e.enumerators, en.value = v ∧ en.skipped = false

/-- Encoding throws before it calls the sink. -/
def EncodeThrows (tr : Traits) (f : FieldMeta) (e : EnumDef) (v : Int) : Prop :=
  ∀ (ω : Type) (s : Sink ω) (w : ω), s.traits = tr →
    ∃ err, encodeEnum s f e v w = .error err w ∧ err.code = .unknownEnumerator

/-- Encoding is the sink's call for the integer. -/
def EncodesInt (tr : Traits) (f : FieldMeta) (e : EnumDef) (v : Int) : Prop :=
  ∀ (ω : Type) (s : Sink ω), s.traits = tr →
    encodeEnum s f e v = if e.underlying.signed then s.sint f v else s.uint f v.toNat

/-- A reader that returns the integer leads to the value. -/
def DecodesInt (tr : Traits) (f : FieldMeta) (e : EnumDef) (v : Int) : Prop :=
  ∀ (σ S M : Type) (env : Env) (r : Reader σ S M) (b b' : Build σ) (off : Nat) (s : σ),
    r.traits = tr →
    r.offset b.reader = .ok off s → decodeInt env r f e.underlying { b with reader := s } =
      .ok v b' →
    decodeEnum env r f e b = .ok () { b' with out := .int v }

/-- A reader that returns the integer makes decoding fail. -/
def DecodeRefuses (tr : Traits) (f : FieldMeta) (e : EnumDef) (v : Int) : Prop :=
  ∀ (σ S M : Type) (env : Env) (r : Reader σ S M) (b b' : Build σ) (off : Nat) (s : σ),
    r.traits = tr →
    (∀ c p, (r.error c p).code = c) →
    r.offset b.reader = .ok off s → decodeInt env r f e.underlying { b with reader := s } =
      .ok v b' →
    ∃ err, decodeEnum env r f e b = .error (.error err) b' ∧ err.code = .unknownEnumerator

/-! ### A sink and a reader -/

deriving instance Inhabited for Errc, Error, DuplicateKey, ErrorMode, Abort, Traits, Sink, Reader

/-- A sink that notes the text it is given, and takes integers. -/
def noteSink (tr : Traits) : Sink (Option Bytes) where
  __ := (default : Sink (Option Bytes))
  traits := tr
  uint _ _ := pure ()
  sint _ _ := pure ()
  text _ t := set (some t)

section

variable {tr : Traits} {f : FieldMeta} {e : EnumDef} {v : Int}

/-! ### Text -/

section Text

variable (hform : tr.enumAsInteger f e = false)

include hform

theorem encodeEnum_of_find {ω : Type} {s : Sink ω} (hs : s.traits = tr) {en : Enumerator}
    (hfind : e.enumerators.find? (fun en => en.value = v) = some en) :
    encodeEnum s f e v = if en.skipped then throw (skippedError e en) else s.text noField
      en.name := by
  rw [encodeEnum, hs, hform, if_neg Bool.false_ne_true, hfind]

theorem encodeEnum_of_find_none {ω : Type} {s : Sink ω} (hs : s.traits = tr)
    (hfind : e.enumerators.find? (fun en => en.value = v) = none) :
    encodeEnum s f e v = throw (noEnumeratorError e v) := by
  rw [encodeEnum, hs, hform, if_neg Bool.false_ne_true, hfind]

end Text

theorem find_of_first {l r : List Enumerator} {en : Enumerator} (he : e.enumerators = l ++ en :: r)
    (hfirst : ∀ x ∈ l, x.value ≠ en.value) :
    e.enumerators.find? (fun x => x.value = en.value) = some en := by
  rw [he, List.find?_eq_some_iff_append]
  exact ⟨decide_eq_true rfl, l, r, rfl, fun x hx => by simpa using hfirst x hx⟩

theorem exists_first
    {en : Enumerator} (hfind : e.enumerators.find? (fun x => x.value = v) = some en) :
    en.value = v ∧ ∃ l r, e.enumerators = l ++ en :: r ∧ ∀ x ∈ l, x.value ≠ en.value := by
  obtain ⟨hvalue, l, r, he, hfirst⟩ := List.find?_eq_some_iff_append.1 hfind
  have hv : en.value = v := of_decide_eq_true hvalue
  exact ⟨hv, l, r, he, fun x hx => by simpa [hv] using hfirst x hx⟩

/-- The first enumerator of a name that is not skipped is found by it. -/
theorem find_name_iff {l r : List Enumerator} {en : Enumerator} (he : e.enumerators = l ++ en :: r)
    (hfirst : ∀ x ∈ l, x.value ≠ en.value) (hskip : en.skipped = false) :
    (e.find en.name).map Enumerator.value = some en.value ↔ ∀ x ∈ l, x.skipped = false →
      en.name ∉ x.names := by
  have htakes : ∀ x : Enumerator,
    decide (¬ x.skipped = true ∧ (x.name = en.name ∨ en.name ∈ x.aliases)) = true ↔
      x.skipped = false ∧ en.name ∈ x.names := by
    intro x
    rw [decide_eq_true_iff, Bool.not_eq_true, Enumerator.names, List.mem_cons,
      eq_comm (a := x.name)]
  rw [EnumDef.find, he, List.find?_append]
  cases hbefore : l.find? fun x => ¬ x.skipped ∧ (x.name = en.name ∨ en.name ∈ x.aliases) with
  | none =>
    have hself : (en :: r).find? (fun x => ¬ x.skipped ∧ (x.name = en.name ∨ en.name ∈ x.aliases)) =
      some en :=
      List.find?_cons_of_pos ((htakes en).2 ⟨hskip, List.mem_cons_self⟩)
    rw [Option.none_or, hself]
    refine iff_of_true rfl fun x hx hkept hname => ?_
    exact List.find?_eq_none.1 hbefore x hx ((htakes x).2 ⟨hkept, hname⟩)
  | some y =>
    have hy := List.mem_of_find?_eq_some hbefore
    have hmatch := List.find?_some hbefore
    obtain ⟨hkept, hname⟩ := (htakes y).1 hmatch
    rw [Option.some_or]
    refine iff_of_false (fun heq => hfirst y hy (Option.some.inj heq)) fun hall => ?_
    exact hall y hy hkept hname

/-- Two enumerators, one name. -/
def echoes : EnumDef where
  name := str "echoes"
  underlying := ⟨true, .w32⟩
  enumerators := [{ name := str "x", identifier := str "a", value := 0 },
    { name := str "x", identifier := str "b", value := 1 }]

/-! ### Integers -/

theorem code_withCandidates (texts : List Bytes) (err : Error) :
    (withCandidates texts err).code = err.code := by
  induction texts generalizing err with
  | nil => rfl
  | cons text texts ih =>
    have hrest := ih (err.withCandidate text)
    exact hrest

section Integer

variable {tr : Traits} {f : FieldMeta} {e : EnumDef} {v : Int} (hform : tr.enumAsInteger f e = true)

include hform

theorem encodeEnum_of_skipped
    {ω : Type} {s : Sink ω} (hs : s.traits = tr) {en : Enumerator} (hen : en ∈ e.enumerators)
    (hvalue : en.value = v) (hskip : en.skipped = true) (w : ω) :
    ∃ err, encodeEnum s f e v w = .error err w ∧ err.code = .unknownEnumerator := by
  rw [encodeEnum, hs, hform, if_pos rfl]
  cases hfind : e.enumerators.find? (fun en => en.value = v ∧ en.skipped) with
  | none =>
    have hne := List.find?_eq_none.1 hfind en hen
    exact absurd (decide_eq_true ⟨hvalue, hskip⟩) hne
  | some x => exact ⟨skippedError e x, rfl, rfl⟩

theorem encodesInt_of_kept (hkept : ∀ en ∈ e.enumerators, en.value = v → en.skipped = false) :
    EncodesInt tr f e v := by
  intro ω s hs
  have hfind : e.enumerators.find? (fun en => en.value = v ∧ en.skipped) = none := by
    rw [List.find?_eq_none]
    intro en hen hmatch
    obtain ⟨hvalue, hskip⟩ := of_decide_eq_true hmatch
    rw [hkept en hen hvalue] at hskip
    cases hskip
  rw [encodeEnum, hs, hform, if_pos rfl, hfind]

/-- A value that an enumerator offers is decoded. -/
theorem decodesInt_of_offers (hoffers : e.Offers v) : DecodesInt tr f e v := by
  rintro σ S M env r b b' off s rfl hoff hint
  rw [decodeEnum, Run.bind_of_ok (call_of_ok hoff), hform, if_pos rfl, Run.bind_of_ok hint]
  cases hfind : e.enumerators.find? (fun en => en.value = v ∧ ¬ en.skipped) with
  | none =>
    obtain ⟨en, hen, hvalue, hkept⟩ := hoffers
    have hne := List.find?_eq_none.1 hfind en hen
    exact absurd (decide_eq_true ⟨hvalue, by simp [hkept]⟩) hne
  | some en =>
    have hmatch := List.find?_some hfind
    obtain ⟨rfl, -⟩ := of_decide_eq_true hmatch
    rfl

/-- A value that none offers is refused. -/
theorem decodeRefuses_of_not_offers (hno : ¬ e.Offers v) : DecodeRefuses tr f e v := by
  rintro σ S M env r b b' off s rfl hcode hoff hint
  rw [decodeEnum, Run.bind_of_ok (call_of_ok hoff), hform, if_pos rfl, Run.bind_of_ok hint]
  cases hfind : e.enumerators.find? (fun en => en.value = v ∧ ¬ en.skipped) with
  | none =>
    refine ⟨_, rfl, ?_⟩
    rw [code_withCandidates]
    exact hcode _ _
  | some en =>
    have hmatch := List.find?_some hfind
    obtain ⟨hvalue, hkept⟩ := of_decide_eq_true hmatch
    exact absurd ⟨en, List.mem_of_find?_eq_some hfind, hvalue, by simpa using hkept⟩ hno

end Integer

theorem noteSink_int {tr : Traits} {f : FieldMeta} {signed : Bool} {v : Int} {w : Option Bytes}
    {err : EncodeError} :
    ¬ (if signed then (noteSink tr).sint f v else (noteSink tr).uint f v.toNat) w =
      .error err w := by
  cases signed with
  | false => exact fun h => by cases h
  | true => exact fun h => by cases h

/-- The value comes back as an integer if an enumerator offers it, and is refused by both directions
otherwise. -/
def ReturnsInt (tr : Traits) (f : FieldMeta) (e : EnumDef) (v : Int) : Prop :=
  (e.Offers v → EncodesInt tr f e v ∧ DecodesInt tr f e v) ∧
    (¬ e.Offers v → EncodeThrows tr f e v ∧ DecodeRefuses tr f e v)

/-- The two directions agree about a value exactly if it is an enumerator's, and its enumerators are
skipped all or none. -/
theorem enum_integer_iff (tr : Traits) (f : FieldMeta) (e : EnumDef) (v : Int)
    (hform : tr.enumAsInteger f e = true) :
    ReturnsInt tr f e v ↔ (∃ en ∈ e.enumerators, en.value = v) ∧
      ∀ a ∈ e.enumerators, ∀ b ∈ e.enumerators, a.value = v → b.value = v →
        a.skipped = b.skipped := by
  constructor
  · rintro ⟨hoffered, hother⟩
    constructor
    · by_contra hnone
      have hno : ¬ e.Offers v := fun ⟨en, hen, hvalue, _⟩ => hnone ⟨en, hen, hvalue⟩
      obtain ⟨err, hthrows, -⟩ := (hother hno).1 _ (noteSink tr) none rfl
      have hwrites :=
        encodesInt_of_kept hform (fun en hen hvalue => absurd ⟨en, hen, hvalue⟩ hnone) _
        (noteSink tr) rfl
      rw [hwrites] at hthrows
      exact noteSink_int hthrows
    · have hkeeps : ∀ a ∈ e.enumerators, ∀ b ∈ e.enumerators, a.value = v → b.value = v →
        a.skipped = false →
          b.skipped = false := by
        intro a ha b hb ha' hb' hkept
        by_contra hskip
        have hwrites := (hoffered ⟨a, ha, ha', hkept⟩).1 _ (noteSink tr) rfl
        obtain ⟨err, hthrows, -⟩ :=
          encodeEnum_of_skipped hform (s := noteSink tr) rfl hb hb' (by simpa using hskip) none
        rw [hwrites] at hthrows
        exact noteSink_int hthrows
      intro a ha b hb ha' hb'
      cases hskip : a.skipped with
      | false => rw [hkeeps a ha b hb ha' hb' hskip]
      | true =>
        by_contra hkept
        have hb0 : b.skipped = false := by simpa using Ne.symm hkept
        rw [hkeeps b hb a ha hb' ha' hb0] at hskip
        cases hskip
  · rintro ⟨⟨en, hen, hvalue⟩, hagree⟩
    constructor
    · rintro hoffers
      refine ⟨encodesInt_of_kept hform fun x hx hx' => ?_, decodesInt_of_offers hform hoffers⟩
      obtain ⟨y, hy, hy', hkept⟩ := hoffers
      rw [hagree x hx y hy hx' hy', hkept]
    · intro hno
      refine ⟨fun ω s w hs => encodeEnum_of_skipped hform hs hen hvalue ?_ w,
        decodeRefuses_of_not_offers hform hno⟩
      by_contra hkept
      exact hno ⟨en, hen, hvalue, by simpa using hkept⟩

theorem enum_integer_iff_echoes :
    ReturnsInt default { asInteger := true } echoes 0 ↔
      (∃ en ∈ echoes.enumerators, en.value = 0) ∧
        ∀ a ∈ echoes.enumerators, ∀ b ∈ echoes.enumerators, a.value = 0 → b.value = 0 →
          a.skipped = b.skipped :=
  enum_integer_iff default { asInteger := true } echoes 0 rfl

/-- A value of no enumerator is encoded. -/
theorem enum_integer_undeclared :
    ¬ ∀ (tr : Traits) (f : FieldMeta) (e : EnumDef) (v : Int), tr.enumAsInteger f e = true →
      ReturnsInt tr f e v := by
  intro hall
  have hno : ¬ echoes.Offers 7 := by
    rintro ⟨en, hen, hvalue, -⟩
    rcases List.mem_cons.1 hen with rfl | hen
    · cases hvalue
    · rcases List.mem_singleton.1 hen with rfl
      cases hvalue
  have hother := (hall default { asInteger := true } echoes 7 rfl).2 hno
  obtain ⟨err, hthrows, -⟩ := hother.1 _ (noteSink _) none rfl
  cases hthrows

end

end VCodec
