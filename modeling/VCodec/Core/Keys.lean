import VCodec.Core.Build
import Mathlib.Data.List.Pairwise
import Mathlib.Data.List.Sort

/-!
# Key tables

How a struct tells the keys of its entries apart: the table of its wire names and aliases, scanned
if it is short and hashed into buckets otherwise, and the table of its integer keys, an array over
their span if that is small and searched otherwise.
-/

namespace VCodec

/-! ### Names -/

structure LookupEntry where
  key : Bytes
  index : Nat
  deriving DecidableEq, Repr

/-- Without buckets the entries are scanned. -/
structure LookupTable where
  entries : List LookupEntry
  bucketStart : List Nat := []
  bucketCount : Nat := 0
  seed : UInt32 := 0
  deriving Repr

def linearScanLimit : Nat := 8

/-- The hash of a name, over its length and its first and last byte. -/
def nameHash (k : Bytes) (seed : UInt32) : UInt32 :=
  let h := UInt32.ofNat k.length * 0x9E3779B1
  let h :=
    match k.head?, k.getLast? with
    | some a, some b => (h ^^^ (a.toUInt32 * 0x85EBCA6B)) ^^^ (b.toUInt32 * 0xC2B2AE35)
    | _, _ => h
  let h := h * (seed ||| 1)
  h ^^^ (h >>> 15)

def bucketOf (seed : UInt32) (m : Nat) (k : Bytes) : Nat := (nameHash k seed).toNat &&& (m - 1)

def scan (es : List LookupEntry) (k : Bytes) : Option Nat := (es.find? (·.key = k)).map (·.index)

def LookupTable.find (t : LookupTable) (k : Bytes) : Option Nat :=
  if t.bucketCount = 0 then scan t.entries k
  else
    let b := bucketOf t.seed t.bucketCount k
    scan ((t.entries.take (t.bucketStart.getD (b + 1) 0)).drop (t.bucketStart.getD b 0)) k

/-- Double the number of buckets until there are twice as many as entries. -/
def bucketsFor (n : Nat) : Nat → Nat → Nat
  | 0, m => m
  | fuel + 1, m => if m < n * 2 then bucketsFor n fuel (m * 2) else m

def load (es : List LookupEntry) (seed : UInt32) (m b : Nat) : Nat :=
  es.countP (bucketOf seed m ·.key = b)

/-- The first seed with the shortest longest bucket. -/
def bestSeed (es : List LookupEntry) (m : Nat) : List UInt32 → UInt32 × Nat → UInt32
  | [], best => best.1
  | seed :: seeds, best =>
    let worst := ((List.range m).map (load es seed m)).foldl max 0
    let best := if worst < best.2 then (seed, worst) else best
    if worst = 1 then best.1 else bestSeed es m seeds best

def bucketLE (seed : UInt32) (m : Nat) (a b : LookupEntry) : Prop :=
  bucketOf seed m a.key < bucketOf seed m b.key ∨ bucketOf seed m a.key = bucketOf seed m b.key ∧
    a.index ≤ b.index

instance (seed : UInt32) (m : Nat) : DecidableRel (bucketLE seed m) :=
  fun _ _ => inferInstanceAs (Decidable (_ ∨ _))

/-- The offsets of buckets with the given numbers of entries. -/
def prefixSums : Nat → List Nat → List Nat
  | n, [] => [n]
  | n, c :: cs => n :: prefixSums (n + c) cs

def buildLookup (es : List LookupEntry) : LookupTable :=
  if es.length ≤ linearScanLimit then { entries := es }
  else
    let m := bucketsFor es.length (es.length * 2) 1
    let seed := bestSeed es m ((List.range 63).map fun i => UInt32.ofNat (i + 1)) (1, es.length + 1)
    { entries := es.insertionSort (bucketLE seed m)
      bucketStart := prefixSums 0 ((List.range m).map (load es seed m))
      bucketCount := m
      seed := seed }

/-- The names of a member. -/
def Field.names (f : Field) : List Bytes := f.wireName :: f.aliases

/-- The table of a struct, with the members that are not to be decoded. -/
def StructDef.lookup (s : StructDef) : LookupTable :=
  buildLookup (s.fields.zipIdx.flatMap fun (f, i) => f.names.map fun k => ⟨k, i⟩)

/-! ### Integers -/

structure IntKey where
  present : Bool := false
  value : Int := 0
  /-- The name of the member is a key as well. -/
  textOk : Bool := true
  deriving DecidableEq, Repr

structure KeyTable where
  keys : List IntKey
  dense : Bool := false
  /-- The key of slot 0. -/
  base : Int := 0
  slots : List (Option Nat) := []
  sorted : List (Int × Nat) := []
  deriving Repr

/-- What becomes of a key. The subtraction from a key far above a negative base overflows. -/
inductive Resolution
  | unknown
  | member (i : Nat)
  | overflow
  /-- The key is not of a kind that is read. -/
  | refused
  deriving DecidableEq, Repr

def KeyTable.any (t : KeyTable) : Bool :=
  if t.dense then 0 < t.slots.length else 0 < t.sorted.length

/-- Binary search between two places. -/
def searchKeys (es : List (Int × Nat)) (k : Int) : Nat → Nat → Nat → Option Nat
  | 0, _, _ => none
  | fuel + 1, lo, hi =>
    if lo < hi then
      let mid := (lo + hi) / 2
      match es[mid]? with
      | none => none
      | some e =>
        if e.1 < k then searchKeys es k fuel (mid + 1) hi
        else if k < e.1 then searchKeys es k fuel lo mid
        else some e.2
    else none

def Resolution.ofIndex : Option Nat → Resolution
  | none => .unknown
  | some i => .member i

def KeyTable.find (t : KeyTable) (k : Int) : Resolution :=
  if t.dense then
    if k < t.base then .unknown
    else if int64Max < k - t.base then .overflow
    else if t.slots.length ≤ k - t.base then .unknown
    else .ofIndex (t.slots.getD (k - t.base).toNat none)
  else .ofIndex (searchKeys t.sorted k (t.sorted.length + 1) 0 t.sorted.length)

/-- The integer keys of the members. -/
def StructDef.intKeys (tr : Traits) (s : StructDef) : List (Int × Nat) :=
  s.fields.zipIdx.filterMap fun (f, i) => (tr.integerKey s f).map fun k => (k, i)

def StructDef.intKey (tr : Traits) (s : StructDef) (f : Field) : IntKey :=
  match tr.integerKey s f with
  | some k => { present := true, value := k, textOk := tr.acceptsTextKey f.info }
  | none => {}

/-- The table of these keys and members. -/
def KeyTable.build (keys : List IntKey) (es : List (Int × Nat)) : KeyTable :=
  let es := es.insertionSort fun a b => a.1 ≤ b.1
  match es.head?, es.getLast? with
  | some lo, some hi =>
    if hi.1 - lo.1 < 256 then
      let slots := (List.range (hi.1 - lo.1 + 1).toNat).map fun (j : Nat) =>
        (es.find? fun e => e.1 - lo.1 = j).map (·.2)
      { keys := keys, dense := true, base := lo.1, slots := slots }
    else { keys := keys, sorted := es }
  | _, _ => { keys := keys }

def StructDef.keyTable (tr : Traits) (s : StructDef) : KeyTable :=
  .build (s.fields.map (s.intKey tr)) (s.intKeys tr)

/-! ### Keys of entries -/

/-- The member that the key of an entry leads to. Where no member has an integer key, every key is
read as text. -/
def StructDef.resolveKey (tr : Traits) (s : StructDef) : EntryKey → Resolution
  | .int k =>
    if ¬ (s.keyTable tr).any then .refused
    else if int64Max < k then .unknown
    else (s.keyTable tr).find k
  | .text k =>
    match s.lookup.find k with
    | none => .unknown
    | some i =>
      let key := (s.keyTable tr).keys.getD i {}
      if (s.keyTable tr).any ∧ key.present ∧ ¬ key.textOk ∧
        (s.fields[i]?).map Field.wireName = some k then .unknown
      else .member i

/-! ### The table of names finds the member of a name -/

theorem scan_eq_some {es : List LookupEntry} (hnodup : (es.map LookupEntry.key).Nodup)
    {k : Bytes} {i : Nat} :
    scan es k = some i ↔ ⟨k, i⟩ ∈ es := by
  unfold scan
  rw [Option.map_eq_some_iff]
  constructor
  · rintro ⟨e, he, rfl⟩
    obtain rfl : e.key = k :=
      of_decide_eq_true (List.find?_some (p := fun e : LookupEntry => decide (e.key = k)) he)
    exact List.mem_of_find?_eq_some he
  · intro hmem
    cases hfind : es.find? (·.key = k) with
    | none =>
      have hne := List.find?_eq_none.1 hfind _ hmem
      exact absurd (decide_eq_true rfl) hne
    | some e =>
      have hkey : e.key = k :=
        of_decide_eq_true (List.find?_some (p := fun e : LookupEntry => decide (e.key = k)) hfind)
      have heq : e = ⟨k, i⟩ :=
        List.inj_on_of_nodup_map hnodup (List.mem_of_find?_eq_some hfind) hmem hkey
      exact ⟨e, rfl, by rw [heq]⟩

theorem getD_prefixSums {cs : List Nat} {i : Nat} (hi : i ≤ cs.length) (n : Nat) :
    (prefixSums n cs).getD i 0 = n + (cs.take i).sum := by
  induction cs generalizing n i with
  | nil =>
    obtain rfl : i = 0 := Nat.le_zero.1 hi
    rfl
  | cons c cs ih =>
    cases i with
    | zero => rfl
    | succ i =>
      show (prefixSums (n + c) cs).getD i 0 = _
      rw [ih (Nat.le_of_succ_le_succ hi), List.take_succ_cons, List.sum_cons, Nat.add_assoc]

section

variable {α : Type} {g : α → Nat} {as : List α}

theorem sum_countP (b : Nat) :
    ((List.range b).map fun j => as.countP (g · = j)).sum = as.countP (g · < b) := by
  induction b with
  | zero =>
    symm
    rw [List.range_zero, List.map_nil, List.sum_nil, List.countP_eq_zero]
    exact fun a _ h => absurd (of_decide_eq_true h) (Nat.not_lt_zero _)
  | succ b ih =>
    rw [List.range_succ, List.map_append, List.sum_append, ih, List.map_singleton,
      List.sum_singleton]
    clear ih
    induction as with
    | nil => rfl
    | cons a as ih =>
      simp only [List.countP_cons, decide_eq_true_eq]
      by_cases hlt : g a < b
      · have hne : g a ≠ b := hlt.ne
        rw [if_pos hlt, if_neg hne, if_pos (Nat.lt_succ_of_lt hlt)]
        omega
      · by_cases heq : g a = b
        · rw [if_neg hlt, if_pos heq, if_pos (heq ▸ Nat.lt_succ_self _)]
          omega
        · have hge : ¬ g a < b + 1 := by omega
          rw [if_neg hlt, if_neg heq, if_neg hge]
          omega

theorem take_countP_lt (h : as.Pairwise fun a b => g a ≤ g b) (b : Nat) :
    as.take (as.countP (g · < b)) = as.filter (g · < b) ∧
      as.drop (as.countP (g · < b)) = as.filter (¬ g · < b) := by
  induction as with
  | nil => exact ⟨rfl, rfl⟩
  | cons a as ih =>
    obtain ⟨ha, has⟩ := List.pairwise_cons.1 h
    obtain ⟨htake, hdrop⟩ := ih has
    by_cases hlt : g a < b
    · have hcount : (a :: as).countP (g · < b) = as.countP (g · < b) + 1 := by simp [hlt]
      have hfilter : (a :: as).filter (g · < b) = a :: as.filter (g · < b) := by simp [hlt]
      have hrest : (a :: as).filter (¬ g · < b) = as.filter (¬ g · < b) := by simp [hlt]
      rw [hcount, hfilter, hrest, List.take_succ_cons, List.drop_succ_cons, htake, hdrop]
      exact ⟨rfl, rfl⟩
    · have hall : ∀ x ∈ a :: as, ¬ g x < b := by
        intro x hx
        rcases List.mem_cons.1 hx with rfl | hx
        · exact hlt
        · exact fun hx' => hlt (lt_of_le_of_lt (ha x hx) hx')
      have hzero : (a :: as).countP (g · < b) = 0 := List.countP_eq_zero.2 fun x hx => by
        simpa using hall x hx
      rw [hzero, List.take_zero, List.drop_zero]
      constructor
      · exact (List.filter_eq_nil_iff.2 fun x hx => by simpa using hall x hx).symm
      · exact (List.filter_eq_self.2 fun x hx => by simpa using hall x hx).symm

/-- A bucket of a sorted list lies between two offsets. -/
theorem slice_eq_filter (h : as.Pairwise fun a b => g a ≤ g b) (b : Nat) :
    (as.take (as.countP (g · < b + 1))).drop (as.countP (g · < b)) = as.filter (g · = b) := by
  rw [(take_countP_lt h (b + 1)).1]
  have hcount : as.countP (g · < b) = (as.filter (g · < b + 1)).countP (g · < b) := by
    rw [List.countP_filter]
    refine List.countP_congr fun a _ => ?_
    simp only [Bool.and_eq_true, decide_eq_true_eq]
    omega
  rw [hcount, (take_countP_lt (h.filter _) b).2, List.filter_filter]
  refine List.filter_congr fun a _ => ?_
  simp only [decide_eq_decide, ← Bool.decide_and]
  omega

end

instance (seed : UInt32) (m : Nat) : Std.Total (bucketLE seed m) where
  total a b := by
    unfold bucketLE
    omega

instance (seed : UInt32) (m : Nat) : IsTrans LookupEntry (bucketLE seed m) where
  trans a b c := by
    unfold bucketLE
    omega

theorem bucketsFor_pos (n : Nat) : ∀ fuel m, 0 < m → 0 < bucketsFor n fuel m
  | 0, _, hm => hm
  | fuel + 1, m, hm => by
    rw [bucketsFor]
    split
    · exact bucketsFor_pos n fuel (m * 2) (by omega)
    · exact hm

theorem scan_cons (e : LookupEntry) (es : List LookupEntry) (k : Bytes) :
    scan (e :: es) k = if e.key = k then some e.index else scan es k := by
  by_cases hkey : e.key = k
  · simp [scan, hkey]
  · simp [scan, hkey]

/-- A scan finds the least index of its key, where the entries of a key come in the order of their
indices. -/
theorem scan_eq_least
    {es : List LookupEntry} (hord : es.Pairwise fun a b => a.key = b.key → a.index ≤ b.index)
    {k : Bytes} {i : Nat} : scan es k = some i ↔ ⟨k, i⟩ ∈ es ∧ ∀ j, ⟨k, j⟩ ∈ es → i ≤ j := by
  induction es with
  | nil => exact iff_of_false nofun fun h => absurd h.1 List.not_mem_nil
  | cons e es ih =>
    obtain ⟨hfirst, hrest⟩ := List.pairwise_cons.1 hord
    by_cases hkey : e.key = k
    · rw [scan_cons, if_pos hkey, Option.some_inj]
      constructor
      · rintro rfl
        refine ⟨by rw [← hkey]; exact List.mem_cons_self, fun j hj => ?_⟩
        rcases List.mem_cons.1 hj with heq | hj
        · rw [← heq]
        · exact hfirst ⟨k, j⟩ hj hkey
      · rintro ⟨hmem, hleast⟩
        have hle : i ≤ e.index := hleast e.index (by rw [← hkey]; exact List.mem_cons_self)
        rcases List.mem_cons.1 hmem with heq | hmem
        · rw [← heq]
        · exact le_antisymm (hfirst ⟨k, i⟩ hmem hkey) hle
    · have hmem : ∀ j, LookupEntry.mk k j ∈ e :: es ↔ ⟨k, j⟩ ∈ es := by
        intro j
        rw [List.mem_cons]
        exact or_iff_right fun h => hkey (by rw [← h])
      rw [scan_cons, if_neg hkey, ih hrest, hmem]
      simp only [hmem]

/-- The table finds what a scan of all entries would, the keys distinct or not. -/
theorem find_buildLookup_eq
    {es : List LookupEntry} (hord : es.Pairwise fun a b => a.key = b.key → a.index ≤ b.index)
    (k : Bytes) : (buildLookup es).find k = scan es k := by
  unfold buildLookup
  split
  · rfl
  · simp only
    generalize bestSeed es _ _ _ = seed
    have hpos := bucketsFor_pos es.length (es.length * 2) 1 Nat.one_pos
    generalize bucketsFor es.length (es.length * 2) 1 = m at hpos
    have hperm : (es.insertionSort (bucketLE seed m)).Perm es := List.perm_insertionSort _ _
    have hle : (es.insertionSort (bucketLE seed m)).Pairwise (bucketLE seed m) :=
      List.pairwise_insertionSort _ es
    generalize es.insertionSort (bucketLE seed m) = sorted at hperm hle
    have hbuckets : sorted.Pairwise fun a b => bucketOf seed m a.key ≤ bucketOf seed m b.key :=
      hle.imp fun h => h.elim le_of_lt fun h => h.1.le
    have hsame : sorted.Pairwise fun a b => a.key = b.key → a.index ≤ b.index :=
      hle.imp fun h heq => h.elim (fun hlt => absurd (heq ▸ hlt) (lt_irrefl _)) fun h => h.2
    have hlt : bucketOf seed m k < m := lt_of_le_of_lt Nat.and_le_right (by omega)
    have hstart : ∀ b ≤ m, (prefixSums 0 ((List.range m).map (load es seed m))).getD b 0 =
        sorted.countP (bucketOf seed m ·.key < b) := by
      intro b hb
      rw [getD_prefixSums (by rwa [List.length_map, List.length_range]),
        Nat.zero_add, ← List.map_take, List.take_range,
        Nat.min_eq_left hb, hperm.countP_eq]
      exact sum_countP (g := fun e : LookupEntry => bucketOf seed m e.key) b
    unfold LookupTable.find
    rw [if_neg hpos.ne']
    simp only
    rw [hstart _ hlt, hstart _ hlt.le,
      slice_eq_filter (g := fun e : LookupEntry => bucketOf seed m e.key) hbuckets]
    have hmem : ∀ i, LookupEntry.mk k i ∈ sorted.filter (bucketOf seed m ·.key = bucketOf seed m k)
      ↔ ⟨k, i⟩ ∈ es := by
      intro i
      rw [List.mem_filter, hperm.mem_iff]
      exact and_iff_left (decide_eq_true rfl)
    apply Option.ext
    intro i
    rw [scan_eq_least (hsame.filter _), scan_eq_least hord, hmem]
    simp only [hmem]

theorem find_buildLookup {es : List LookupEntry} (hnodup : (es.map LookupEntry.key).Nodup)
    {k : Bytes} {i : Nat} :
    (buildLookup es).find k = some i ↔ ⟨k, i⟩ ∈ es := by
  have hne : es.Pairwise fun a b => a.key ≠ b.key := List.pairwise_map.1 hnodup
  rw [find_buildLookup_eq (hne.imp fun h heq => absurd heq h), scan_eq_some hnodup]

theorem nodup_names {fs : List Field} (h : (fs.flatMap Field.names).Nodup) (n : Nat) :
    (((fs.zipIdx n).flatMap fun (f, i) => f.names.map fun k => LookupEntry.mk k i).map
      LookupEntry.key).Nodup := by
  have hmap : ((fs.zipIdx n).flatMap fun (f, i) => f.names.map fun k => LookupEntry.mk k i).map
    LookupEntry.key =
      fs.flatMap Field.names := by
    clear h
    induction fs generalizing n with
    | nil => rfl
    | cons f fs ih =>
      rw [List.zipIdx_cons, List.flatMap_cons, List.map_append, ih, List.flatMap_cons, List.map_map]
      exact congrArg (· ++ _) (List.map_id f.names)
  rwa [hmap]

/-- A text leads to the member that has it as its wire name or as an alias. -/
theorem find_lookup {s : StructDef} (h : (s.fields.flatMap Field.names).Nodup)
    {k : Bytes} {i : Nat} :
    s.lookup.find k = some i ↔ ∃ f, s.fields[i]? = some f ∧ k ∈ f.names := by
  unfold StructDef.lookup
  rw [find_buildLookup (nodup_names h 0), List.mem_flatMap]
  constructor
  · rintro ⟨⟨f, j⟩, hfj, hmem⟩
    obtain ⟨k', hk', heq⟩ := List.mem_map.1 hmem
    cases heq
    exact ⟨f, List.mem_zipIdx_iff_getElem?.1 hfj, hk'⟩
  · rintro ⟨f, hf, hk⟩
    exact ⟨(f, i), List.mem_zipIdx_iff_getElem?.2 hf, List.mem_map.2 ⟨k, hk, rfl⟩⟩

/-! ### The table of integers finds the member of a key -/

section

variable {es : List (Int × Nat)} {k : Int} {i : Nat}

/-- What lies before `lo` is smaller, and what lies from `hi` on is larger. -/
theorem searchKeys_eq_some (hsorted : es.Pairwise fun a b => a.1 < b.1) {fuel lo hi : Nat}
    (hfuel : hi - lo < fuel) (hhi : hi ≤ es.length)
    (hbelow : ∀ j e, j < lo → es[j]? = some e → e.1 < k)
    (habove : ∀ j e, hi ≤ j → es[j]? = some e → k < e.1) :
    searchKeys es k fuel lo hi = some i ↔ (k, i) ∈ es := by
  induction fuel generalizing lo hi with
  | zero => exact absurd hfuel (Nat.not_lt_zero _)
  | succ fuel ih =>
    have hkey : ∀ {j e}, es[j]? = some e → e.1 = k → lo ≤ j ∧ j < hi := by
      intro j e he heq
      refine ⟨?_, ?_⟩
      · by_contra hlt
        exact absurd (hbelow j e (not_le.1 hlt) he) (by omega)
      · by_contra hge
        exact absurd (habove j e (not_lt.1 hge) he) (by omega)
    rw [searchKeys]
    split
    · rename_i hlt
      have hmid : (lo + hi) / 2 < es.length := by omega
      have hpairs := List.pairwise_iff_getElem.1 hsorted
      simp only [List.getElem?_eq_getElem hmid]
      split
      · rename_i hless
        refine ih (by omega) hhi (fun j e hj he => ?_) habove
        obtain ⟨hlen, rfl⟩ := List.getElem?_eq_some_iff.1 he
        rcases Nat.lt_or_eq_of_le (Nat.le_of_lt_succ hj) with hj | hj
        · exact lt_trans (hpairs j _ hlen hmid hj) hless
        · subst hj
          exact hless
      · split
        · rename_i hmore
          refine ih (by omega) (by omega) hbelow fun j e hj he => ?_
          obtain ⟨hlen, rfl⟩ := List.getElem?_eq_some_iff.1 he
          rcases Nat.lt_or_eq_of_le hj with hj | hj
          · exact lt_trans hmore (hpairs _ j hmid hlen hj)
          · subst hj
            exact hmore
        · rename_i hless hmore
          have heq : es[(lo + hi) / 2].1 = k := by omega
          have hnodup : (es.map Prod.fst).Nodup := by
            rw [List.Nodup, List.pairwise_map]
            exact hsorted.imp fun h => ne_of_lt h
          rw [Option.some_inj]
          constructor
          · rintro rfl
            rw [← heq]
            exact List.getElem_mem hmid
          · intro hmem
            rw [List.inj_on_of_nodup_map hnodup (List.getElem_mem hmid) hmem heq]
    · rename_i hge
      refine iff_of_false (fun h => nomatch h) fun hmem => ?_
      obtain ⟨j, hj, hget⟩ := List.mem_iff_getElem.1 hmem
      obtain ⟨hlo, hhi⟩ := hkey (List.getElem?_eq_getElem hj) (by rw [hget])
      omega

theorem find?_key (hnodup : (es.map Prod.fst).Nodup) :
    (es.find? fun e => e.1 = k).map Prod.snd = some i ↔ (k, i) ∈ es := by
  rw [Option.map_eq_some_iff]
  constructor
  · rintro ⟨e, he, rfl⟩
    obtain rfl : e.1 = k :=
      of_decide_eq_true (List.find?_some (p := fun e : Int × Nat => decide (e.1 = k)) he)
    exact List.mem_of_find?_eq_some he
  · intro hmem
    cases hfind : es.find? fun e => e.1 = k with
    | none => exact absurd (decide_eq_true rfl) (List.find?_eq_none.1 hfind _ hmem)
    | some e =>
      have hkey : e.1 = k :=
        of_decide_eq_true (List.find?_some (p := fun e : Int × Nat => decide (e.1 = k)) hfind)
      exact ⟨e, rfl,
        by rw [List.inj_on_of_nodup_map hnodup (List.mem_of_find?_eq_some hfind) hmem hkey]⟩

end

section

variable {tr : Traits} {s : StructDef}

theorem mem_intKeys {k : Int} {i : Nat} :
    (k, i) ∈ s.intKeys tr ↔ ∃ f, s.fields[i]? = some f ∧ tr.integerKey s f = some k := by
  unfold StructDef.intKeys
  rw [List.mem_filterMap]
  constructor
  · rintro ⟨⟨f, j⟩, hfj, hmap⟩
    obtain ⟨k', hk', heq⟩ := Option.map_eq_some_iff.1 hmap
    cases heq
    exact ⟨f, List.mem_zipIdx_iff_getElem?.1 hfj, hk'⟩
  · rintro ⟨f, hf, hk⟩
    exact ⟨(f, i), List.mem_zipIdx_iff_getElem?.2 hf, Option.map_eq_some_iff.2 ⟨k, hk, rfl⟩⟩

theorem map_fst_intKeys (tr : Traits) (s : StructDef) :
    (s.intKeys tr).map Prod.fst = s.fields.filterMap (tr.integerKey s) := by
  have hfrom : ∀ (fs : List Field) (n : Nat),
      ((fs.zipIdx n).filterMap fun (f, i) => (tr.integerKey s f).map fun k => (k, i)).map Prod.fst =
        fs.filterMap (tr.integerKey s) := by
    intro fs
    induction fs with
    | nil => exact fun _ => rfl
    | cons f fs ih =>
      intro n
      rw [List.zipIdx_cons, List.filterMap_cons, List.filterMap_cons]
      cases hk : tr.integerKey s f with
      | none =>
        simp only [hk, Option.map_none]
        exact ih (n + 1)
      | some k =>
        simp only [hk, Option.map_some, List.map_cons]
        exact congrArg (k :: ·) (ih (n + 1))
  exact hfrom s.fields 0

/-- Slot 0 of a dense table is the place of a key. -/
theorem KeyTable.base_build {keys : List IntKey} {ks : List (Int × Nat)}
    (hdense : (KeyTable.build keys ks).dense = true) :
    ∃ e ∈ ks, e.1 = (KeyTable.build keys ks).base := by
  have hperm : (ks.insertionSort fun a b => a.1 ≤ b.1).Perm ks := List.perm_insertionSort _ _
  unfold KeyTable.build at hdense ⊢
  simp only at hdense ⊢
  generalize ks.insertionSort (fun a b => a.1 ≤ b.1) = es at hperm hdense ⊢
  simp only [← hperm.mem_iff]
  cases es with
  | nil => cases hdense
  | cons lo es =>
    refine ⟨lo, .head _, ?_⟩
    rw [List.getLast?_eq_getLast_of_ne_nil (List.cons_ne_nil _ _)] at hdense ⊢
    simp only [List.head?_cons] at hdense ⊢
    split
    · rfl
    · rename_i hwide
      rw [if_neg hwide] at hdense
      cases hdense

/-- A key that is in reach of the subtraction leads to the member that has it. -/
theorem KeyTable.find_build {keys : List IntKey} {ks : List (Int × Nat)}
    (hkeys : (ks.map Prod.fst).Nodup)
    {k : Int} (hreach : (KeyTable.build keys ks).dense = true →
      k - (KeyTable.build keys ks).base ≤ int64Max) :
    ∃ o, (KeyTable.build keys ks).find k = .ofIndex o ∧ ∀ i, o = some i ↔ (k, i) ∈ ks := by
  have hperm : (ks.insertionSort fun a b => a.1 ≤ b.1).Perm ks := List.perm_insertionSort _ _
  have hle : (ks.insertionSort fun a b => a.1 ≤ b.1).Pairwise fun a b => a.1 ≤ b.1 :=
    List.pairwise_insertionSort _ _
  have hnodup : ((ks.insertionSort fun a b => a.1 ≤ b.1).map Prod.fst).Nodup := by
    rw [(hperm.map Prod.fst).nodup_iff]
    exact hkeys
  unfold KeyTable.build at hreach ⊢
  simp only at hreach ⊢
  generalize ks.insertionSort (fun a b => a.1 ≤ b.1) = es at hperm hle hnodup hreach ⊢
  simp only [← hperm.mem_iff]
  have hlt : es.Pairwise fun a b => a.1 < b.1 := by
    rw [List.Nodup, List.pairwise_map] at hnodup
    exact (hle.and hnodup).imp fun h => lt_of_le_of_ne h.1 h.2
  have hsearch : ∀ i, searchKeys es k (es.length + 1) 0 es.length = some i ↔ (k, i) ∈ es := fun i =>
    searchKeys_eq_some hlt (by omega) le_rfl (fun j e hj => absurd hj (Nat.not_lt_zero j))
      fun j e hj he => by
      rw [List.getElem?_eq_none hj] at he
      cases he
  cases es with
  | nil => exact ⟨none, rfl, fun i => iff_of_false (fun h => nomatch h) List.not_mem_nil⟩
  | cons lo es =>
    have hlast : (lo :: es).getLast? = some ((lo :: es).getLast (List.cons_ne_nil _ _)) :=
      List.getLast?_eq_getLast_of_ne_nil _
    rw [hlast] at hreach ⊢
    generalize hgetLast : (lo :: es).getLast (List.cons_ne_nil _ _) = hi at hreach ⊢
    simp only [List.head?_cons] at hreach ⊢
    split
    · rename_i hspan
      have hmin : ∀ e ∈ lo :: es, lo.1 ≤ e.1 := by
        intro e he
        rcases List.mem_cons.1 he with rfl | he
        · exact le_rfl
        · exact (List.pairwise_cons.1 hle).1 e he
      have hmax : ∀ e ∈ lo :: es, e.1 ≤ hi.1 := by
        intro e he
        rw [← hgetLast]
        exact hle.rel_getLast_of_rel_getLast_getLast he le_rfl
      have hbase : k - lo.1 ≤ int64Max := by
        rw [if_pos hspan] at hreach
        exact hreach rfl
      unfold KeyTable.find
      simp only [if_true, List.length_map, List.length_range]
      split
      · rename_i hbelow
        exact ⟨none, rfl, fun i => iff_of_false (fun h => nomatch h) fun hmem =>
          absurd (hmin _ hmem) (not_le.2 hbelow)⟩
      · rename_i hge
        rw [if_neg (not_lt.2 hbase)]
        split
        · rename_i habove
          refine ⟨none, rfl, fun i => iff_of_false (fun h => nomatch h) fun hmem => ?_⟩
          have := hmax _ hmem
          simp only at this
          omega
        · rename_i hle'
          refine ⟨_, rfl, fun i => ?_⟩
          have hj : (k - lo.1).toNat < (hi.1 - lo.1 + 1).toNat := by omega
          rw [List.getD_eq_getElem?_getD, List.getElem?_map, List.getElem?_range hj]
          have hpred : (fun e : Int × Nat => decide (e.1 - lo.1 = ((k - lo.1).toNat : Int))) =
            fun e => decide (e.1 = k) := by
            funext e
            rw [decide_eq_decide]
            omega
          simp only [Option.map_some, Option.getD_some, hpred]
          exact find?_key hnodup
    · exact ⟨_, rfl, hsearch⟩

theorem find_keyTable (hkeys : (s.fields.filterMap (tr.integerKey s)).Nodup) {k : Int}
    (hreach : ∀ e ∈ s.intKeys tr, k - e.1 ≤ int64Max) :
    ∃ o, (s.keyTable tr).find k = .ofIndex o ∧ ∀ i, o = some i ↔ (k, i) ∈ s.intKeys tr := by
  refine KeyTable.find_build ?_ fun hdense => ?_
  · rw [map_fst_intKeys]
    exact hkeys
  · obtain ⟨e, he, hbase⟩ := KeyTable.base_build hdense
    rw [← hbase]
    exact hreach e he

theorem keys_keyTable (tr : Traits) (s : StructDef) :
    (s.keyTable tr).keys = s.fields.map (s.intKey tr) := by
  simp only [StructDef.keyTable, KeyTable.build]
  split
  · split <;> rfl
  · rfl

theorem any_keyTable {k : Int} {i : Nat} (h : (k, i) ∈ s.intKeys tr) :
    (s.keyTable tr).any = true := by
  have hperm : ((s.intKeys tr).insertionSort fun a b => a.1 ≤ b.1).Perm (s.intKeys tr) :=
    List.perm_insertionSort _ _
  have hle : ((s.intKeys tr).insertionSort fun a b => a.1 ≤ b.1).Pairwise fun a b => a.1 ≤ b.1 :=
    List.pairwise_insertionSort _ _
  simp only [StructDef.keyTable, KeyTable.build]
  generalize (s.intKeys tr).insertionSort (fun a b => a.1 ≤ b.1) = es at hperm hle
  cases es with
  | nil =>
    rw [← hperm.mem_iff] at h
    exact absurd h List.not_mem_nil
  | cons lo es =>
    have hlast : (lo :: es).getLast? = some ((lo :: es).getLast (List.cons_ne_nil _ _)) :=
      List.getLast?_eq_getLast_of_ne_nil _
    have hle' : lo.1 ≤ ((lo :: es).getLast (List.cons_ne_nil _ _)).1 :=
      hle.rel_getLast_of_rel_getLast_getLast (.head _) le_rfl
    rw [hlast]
    simp only [List.head?_cons]
    unfold KeyTable.any
    split
    · simp only [if_true, List.length_map, List.length_range, decide_eq_true_eq]
      omega
    · simp only [Bool.false_eq_true, if_false, List.length_cons, decide_eq_true_eq]
      omega

/-- The key of an entry is one of the member's. -/
def StructDef.Takes (tr : Traits) (s : StructDef) (f : Field) : EntryKey → Prop
  | .int k => tr.integerKey s f = some k
  | .text k =>
    k = f.wireName ∧ (tr.integerKey s f = none ∨ tr.acceptsTextKey f.info = true) ∨ k ∈ f.aliases

theorem resolveKey_text (hnames : (s.fields.flatMap Field.names).Nodup) (k : Bytes) :
    ∃ o, s.resolveKey tr (.text k) = .ofIndex o ∧
      ∀ i, o = some i ↔ ∃ f, s.fields[i]? = some f ∧ s.Takes tr f (.text k) := by
  cases hfind : s.lookup.find k with
  | none =>
    have hresolve : s.resolveKey tr (.text k) = .unknown := by
      simp only [StructDef.resolveKey, hfind]
    refine ⟨none, hresolve, fun i => iff_of_false (fun h => nomatch h) ?_⟩
    rintro ⟨f, hf, htakes⟩
    have hmem : k ∈ f.names := List.mem_cons.2 (htakes.imp_left fun h => h.1)
    rw [(find_lookup hnames).2 ⟨f, hf, hmem⟩] at hfind
    cases hfind
  | some i =>
    obtain ⟨f, hf, hk⟩ := (find_lookup hnames).1 hfind
    have hunique : ∀ {j g}, s.fields[j]? = some g → k ∈ g.names → j = i := by
      intro j g hg hmem
      have hj := (find_lookup hnames).2 ⟨g, hg, hmem⟩
      rw [hfind] at hj
      exact (Option.some_inj.1 hj).symm
    have hkey : (s.keyTable tr).keys.getD i {} = s.intKey tr f := by
      rw [keys_keyTable, List.getD_eq_getElem?_getD, List.getElem?_map, hf]
      rfl
    have hcond : ((s.keyTable tr).any = true ∧ (s.intKey tr f).present = true ∧
      ¬ (s.intKey tr f).textOk = true ∧
        f.wireName = k) ↔ (tr.integerKey s f).isSome = true ∧ tr.acceptsTextKey f.info = false ∧
          f.wireName = k := by
      unfold StructDef.intKey
      cases hint : tr.integerKey s f with
      | none =>
        exact iff_of_false (fun h => Bool.false_ne_true h.2.1) fun h => Bool.false_ne_true h.1
      | some k' =>
        have hany := any_keyTable (mem_intKeys.2 ⟨f, hf, hint⟩)
        simp [hany]
    have hresolve : s.resolveKey tr (.text k) =
        if (tr.integerKey s f).isSome = true ∧ tr.acceptsTextKey f.info = false ∧
          f.wireName = k then .unknown
        else .member i := by
      simp only [StructDef.resolveKey, hfind, hkey, hf, Option.map_some, Option.some_inj]
      exact if_congr hcond rfl rfl
    rw [hresolve]
    split
    · rename_i hrefuse
      refine ⟨none, rfl, fun j => iff_of_false (fun h => nomatch h) ?_⟩
      rintro ⟨g, hg, htakes⟩
      obtain rfl := hunique hg (List.mem_cons.2 (htakes.imp_left fun h => h.1))
      rw [hf] at hg
      cases hg
      rcases htakes with ⟨-, hnone | haccept⟩ | halias
      · rw [hnone] at hrefuse
        exact Bool.false_ne_true hrefuse.1
      · rw [haccept] at hrefuse
        exact Bool.false_ne_true hrefuse.2.1.symm
      · -- an alias of a member is not its wire name
        have hnodup : f.names.Nodup := (List.nodup_flatMap.1 hnames).1 f (List.mem_of_getElem? hf)
        exact (List.nodup_cons.1 hnodup).1 (hrefuse.2.2 ▸ halias)
    · rename_i haccept
      refine ⟨some i, rfl, fun j => ⟨?_, ?_⟩⟩
      · rintro ⟨⟩
        refine ⟨f, hf, ?_⟩
        rcases List.mem_cons.1 hk with hname | halias
        · refine .inl ⟨hname, ?_⟩
          rw [not_and_or, not_and_or] at haccept
          rcases haccept with h | h | h
          · exact .inl (Option.not_isSome_iff_eq_none.1 h)
          · exact .inr (by simpa using h)
          · exact absurd hname.symm h
        · exact .inr halias
      · rintro ⟨g, hg, htakes⟩
        rw [hunique hg (List.mem_cons.2 (htakes.imp_left fun h => h.1))]

theorem resolveKey_int (hkeys : (s.fields.filterMap (tr.integerKey s)).Nodup)
    (hrange : ∀ e ∈ s.intKeys tr, e.1 ≤ int64Max) (hany : s.intKeys tr ≠ []) {k : Int}
    (hreach : k ≤ int64Max → ∀ e ∈ s.intKeys tr, k - e.1 ≤ int64Max) :
    ∃ o, s.resolveKey tr (.int k) = .ofIndex o ∧
      ∀ i, o = some i ↔ ∃ f, s.fields[i]? = some f ∧ s.Takes tr f (.int k) := by
  obtain ⟨e, es, hes⟩ := List.exists_cons_of_ne_nil hany
  have hmem : (e.1, e.2) ∈ s.intKeys tr := hes ▸ .head _
  have htable : ¬ ¬ (s.keyTable tr).any = true := not_not.2 (any_keyTable hmem)
  have hresolve : s.resolveKey tr (.int k) =
    if int64Max < k then .unknown else (s.keyTable tr).find k := by
    simp only [StructDef.resolveKey]
    exact if_neg htable
  rw [hresolve]
  split
  · rename_i hbig
    refine ⟨none, rfl, fun i => iff_of_false (fun h => nomatch h) ?_⟩
    rintro ⟨f, hf, htakes⟩
    exact absurd (hrange _ (mem_intKeys.2 ⟨f, hf, htakes⟩)) (not_le.2 hbig)
  · rename_i hsmall
    obtain ⟨o, hfind, ho⟩ := find_keyTable hkeys (hreach (not_lt.1 hsmall))
    exact ⟨o, hfind, fun i => (ho i).trans mem_intKeys⟩

end

/-! ### The decoder's rule -/

theorem nodup_flatMap_index {α β : Type} {g : α → List β} {as : List α} (h : (as.flatMap g).Nodup)
    {i j : Nat} {a a' : α} {b : β} (hi : as[i]? = some a) (hj : as[j]? = some a') (hb : b ∈ g a)
    (hb' : b ∈ g a') : i = j := by
  have hpair := List.pairwise_iff_getElem.1 (List.nodup_flatMap.1 h).2
  obtain ⟨hlti, rfl⟩ := List.getElem?_eq_some_iff.1 hi
  obtain ⟨hltj, rfl⟩ := List.getElem?_eq_some_iff.1 hj
  rcases Nat.lt_trichotomy i j with hlt | heq | hlt
  · exact absurd hb' (hpair i j hlti hltj hlt hb)
  · exact heq
  · exact absurd hb (hpair j i hltj hlti hlt hb')

theorem findIdx?_eq_of_unique
    {α : Type} {p : α → Bool} {as : List α} {i : Nat} {a : α} (hi : as[i]? = some a)
    (ha : p a = true) (h : ∀ j a', as[j]? = some a' → p a' = true → j = i) :
    as.findIdx? p = some i := by
  have hlt := (List.getElem?_eq_some_iff.1 hi).1
  cases hfind : as.findIdx? p with
  | none =>
    have hmem := List.mem_of_getElem? hi
    rw [List.findIdx?_eq_none_iff.1 hfind a hmem] at ha
    cases ha
  | some j =>
    obtain ⟨hj, hp, -⟩ := List.findIdx?_eq_some_iff_getElem.1 hfind
    rw [h j _ (List.getElem?_eq_getElem hj) hp]

/-- What the audit of a schema has found: different members have different names and keys, and a key
is a `std::int64_t`. -/
structure StructDef.Told (tr : Traits) (s : StructDef) : Prop where
  names : (s.fields.flatMap Field.names).Nodup
  keys : (s.fields.filterMap (tr.integerKey s)).Nodup
  int64 : ∀ e ∈ s.intKeys tr, e.1 ≤ int64Max

/-- The decoder's search for the member of a key finds the one that takes it. -/
theorem resolve_eq_some {σ S M : Type} {r : Reader σ S M} {s : StructDef}
    (h : s.Told r.traits) {key : EntryKey} {i : Nat} :
    s.resolve r key = some i ↔ ∃ f, s.fields[i]? = some f ∧ s.Takes r.traits f key := by
  cases key with
  | int k =>
    have hunique : ∀ {j j' : Nat} {g g' : Field}, s.fields[j]? = some g → s.fields[j']? = some g' →
        r.traits.integerKey s g = some k → r.traits.integerKey s g' = some k → j = j' := by
      intro j j' g g' hg hg' hk hk'
      have hnodup := h.keys
      rw [List.filterMap_eq_flatMap_toList] at hnodup
      exact nodup_flatMap_index hnodup hg hg' (b := k) (Option.mem_toList.2 hk)
        (Option.mem_toList.2 hk')
    constructor
    · intro hfind
      obtain ⟨hi, hkey, -⟩ := List.findIdx?_eq_some_iff_getElem.1 hfind
      have htakes : r.traits.integerKey s s.fields[i] = some k := of_decide_eq_true hkey
      exact ⟨_, List.getElem?_eq_getElem hi, htakes⟩
    · rintro ⟨f, hf, hk⟩
      exact findIdx?_eq_of_unique hf (decide_eq_true hk) fun j g hg hkey =>
        hunique hg hf (of_decide_eq_true hkey) hk
  | text k =>
    have hunique : ∀ {j j' : Nat} {g g' : Field}, s.fields[j]? = some g → s.fields[j']? = some g' →
        k ∈ g.names → k ∈ g'.names → j = j' :=
          fun hg hg' hk hk' => nodup_flatMap_index h.names hg hg' hk hk'
    have hname : ∀ {g : Field}, decide (g.wireName = k ∨ k ∈ g.aliases) = true ↔ k ∈ g.names := by
      intro g
      rw [decide_eq_true_eq]
      exact (or_congr_left eq_comm).trans List.mem_cons.symm
    have hfind : ∀ {j g}, s.fields[j]? = some g → k ∈ g.names → s.find k = some j := fun hg hk =>
      findIdx?_eq_of_unique hg (hname.2 hk) fun j' g' hg' hk' => hunique hg' hg (hname.1 hk') hk
    have hnames : ∀ {f : Field}, s.Takes r.traits f (.text k) → k ∈ f.names := fun ht =>
      List.mem_cons.2 (ht.imp_left fun h => h.1)
    unfold StructDef.resolve
    simp only
    cases hk : s.find k with
    | none =>
      refine iff_of_false (fun h => nomatch h) ?_
      rintro ⟨f, hf, htakes⟩
      rw [hfind hf (hnames htakes)] at hk
      cases hk
    | some j =>
      obtain ⟨hj, hkj, -⟩ := List.findIdx?_eq_some_iff_getElem.1 hk
      have hget := List.getElem?_eq_getElem hj
      generalize s.fields[j] = g at hkj hget
      have hkg := hname.1 hkj
      simp only [hget]
      have honly : (∃ f, s.fields[i]? = some f ∧ s.Takes r.traits f (.text k)) ↔
        j = i ∧ s.Takes r.traits g (.text k) := by
        constructor
        · rintro ⟨f, hf, htakes⟩
          obtain rfl := hunique hget hf hkg (hnames htakes)
          rw [hget] at hf
          cases hf
          exact ⟨rfl, htakes⟩
        · rintro ⟨rfl, htakes⟩
          exact ⟨g, hget, htakes⟩
      rw [honly]
      split
      · rename_i hrefuse
        refine iff_of_false (fun h => nomatch h) ?_
        rintro ⟨-, ⟨-, hnone | haccept⟩ | halias⟩
        · rw [hnone] at hrefuse
          exact Bool.false_ne_true hrefuse.1
        · exact hrefuse.2.1 haccept
        · have hnodup : g.names.Nodup :=
            (List.nodup_flatMap.1 h.names).1 g (List.mem_of_getElem? hget)
          exact (List.nodup_cons.1 hnodup).1 (hrefuse.2.2 ▸ halias)
      · rename_i haccept
        rw [Option.some_inj, iff_self_and]
        rintro -
        rcases List.mem_cons.1 hkg with hwire | halias
        · refine .inl ⟨hwire, ?_⟩
          rw [not_and_or, not_and_or] at haccept
          rcases haccept with h | h | h
          · exact .inl (Option.not_isSome_iff_eq_none.1 h)
          · exact .inr (not_not.1 h)
          · exact absurd hwire h
        · exact .inr halias

end VCodec
