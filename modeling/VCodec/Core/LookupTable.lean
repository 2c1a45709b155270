import VCodec.Core.KeyFind

/-!
# Looking up a name

`lookup_table::find` with its array accesses checked, on a table whose entries may come from any
sort by bucket and index. It finds what a linear search of the list would, and no access leaves its
array.
-/

namespace VCodec

/-! ### The search -/

/-- Up to `n` entries from `i` on. -/
def scanChecked (es : List LookupEntry) (k : Bytes) : Nat → Nat → Except Fault (Option Nat)
  | 0, _ => .ok none
  | n + 1, i => do
    let e ← readAt es i
    if e.key = k then return some e.index else scanChecked es k n (i + 1)

/-- `lookup_table::find`, `none` for `npos`. -/
def LookupTable.findChecked (t : LookupTable) (k : Bytes) : Except Fault (Option Nat) :=
  if t.bucketCount = 0 then scanChecked t.entries k t.entries.length 0
  else do
    let b := bucketOf t.seed t.bucketCount k
    let start ← readAt t.bucketStart b
    let stop ← readAt t.bucketStart (b + 1)
    scanChecked t.entries k (stop - start) start

/-! ### The table -/

def lookupBuckets (es : List LookupEntry) : Nat := bucketsFor es.length (es.length * 2) 1

def lookupSeed (es : List LookupEntry) : UInt32 :=
  bestSeed es (lookupBuckets es) ((List.range 63).map fun i => UInt32.ofNat (i + 1))
    (1, es.length + 1)

/-- What `build_lookup` may return: `std::sort` leaves entries of one bucket and one index in any
order. -/
inductive IsLookup (es : List LookupEntry) : LookupTable → Prop
  | linear (hsmall : es.length ≤ linearScanLimit) : IsLookup es { entries := es }
  | buckets (hlarge : linearScanLimit < es.length) {sorted : List LookupEntry}
      (hperm : sorted.Perm es)
      (hsorted : sorted.Pairwise (bucketLE (lookupSeed es) (lookupBuckets es))) :
      IsLookup es {
        entries := sorted
        bucketStart :=
          prefixSums 0
          ((List.range (lookupBuckets es)).map (load es (lookupSeed es) (lookupBuckets es)))
        bucketCount := lookupBuckets es
        seed := lookupSeed es }

theorem isLookup_buildLookup (es : List LookupEntry) : IsLookup es (buildLookup es) := by
  unfold buildLookup
  split
  · rename_i hsmall
    exact .linear hsmall
  · rename_i hlarge
    exact .buckets (not_le.1 hlarge) (List.perm_insertionSort _ _)
      (List.pairwise_insertionSort _ es)

variable {es : List LookupEntry} {k : Bytes}

/-- A scan inside the array looks at the entries from `i` on. -/
theorem scanChecked_eq {n i : Nat} (h : i + n ≤ es.length) :
    scanChecked es k n i = .ok (scan ((es.drop i).take n) k) := by
  induction n generalizing i with
  | zero =>
    rw [List.take_zero]
    rfl
  | succ n ih =>
    have hi : i < es.length := by omega
    rw [scanChecked, readAt_eq hi, List.drop_eq_getElem_cons hi, List.take_succ_cons, scan_cons]
    show (if es[i].key = k then Except.ok (some es[i].index) else scanChecked es k n (i + 1)) = _
    split
    · rfl
    · exact ih (by omega)

theorem length_prefixSums (n : Nat) (cs : List Nat) : (prefixSums n cs).length = cs.length + 1 := by
  induction cs generalizing n with
  | nil => rfl
  | cons c cs ih => rw [prefixSums, List.length_cons, ih, List.length_cons]

section

variable (seed : UInt32) (m : Nat)

/-- A bucket starts where the entries of the buckets before it end. -/
theorem start_eq {sorted : List LookupEntry} (hperm : sorted.Perm es) {b : Nat} (hb : b ≤ m) :
    (prefixSums 0 ((List.range m).map (load es seed m))).getD b 0 =
      sorted.countP (bucketOf seed m ·.key < b) := by
  rw [getD_prefixSums (by rwa [List.length_map, List.length_range]), Nat.zero_add, ← List.map_take,
    List.take_range,
    Nat.min_eq_left hb, hperm.countP_eq]
  exact sum_countP (g := fun e : LookupEntry => bucketOf seed m e.key) b

theorem readAt_start {sorted : List LookupEntry} (hperm : sorted.Perm es) {b : Nat} (hb : b ≤ m) :
    readAt (prefixSums 0 ((List.range m).map (load es seed m))) b =
      .ok (sorted.countP (bucketOf seed m ·.key < b)) := by
  have hlen : b < (prefixSums 0 ((List.range m).map (load es seed m))).length := by
    rw [length_prefixSums, List.length_map, List.length_range]
    omega
  have hstart := start_eq seed m hperm hb
  rw [List.getD_eq_getElem?_getD, List.getElem?_eq_getElem hlen, Option.getD_some] at hstart
  rw [readAt_eq hlen, hstart]

end

/-- Every entry of the table of offsets is a number of entries. -/
theorem start_le {t : LookupTable} (ht : IsLookup es t) : ∀ x ∈ t.bucketStart, x ≤ es.length := by
  cases ht with
  | linear _ => exact fun x hx => nomatch hx
  | @buckets hlarge sorted hperm _ =>
    intro x hx
    obtain ⟨b, hb, rfl⟩ := List.mem_iff_getElem.1 hx
    rw [length_prefixSums, List.length_map, List.length_range] at hb
    have hstart := start_eq (lookupSeed es) _ hperm (Nat.le_of_lt_succ hb)
    rw [List.getD_eq_getElem?_getD,
      List.getElem?_eq_getElem (by rwa [length_prefixSums, List.length_map, List.length_range]),
      Option.getD_some] at hstart
    rw [hstart, ← hperm.length_eq]
    exact List.countP_le_length

/-- The search of every table stays inside its arrays, and finds what a scan of all entries
would. -/
theorem findChecked_eq_scan
    (hord : es.Pairwise fun a b => a.key = b.key → a.index ≤ b.index) {t : LookupTable}
    (ht : IsLookup es t) (k : Bytes) : t.findChecked k = .ok (scan es k) := by
  unfold LookupTable.findChecked
  cases ht with
  | linear _ =>
    rw [if_pos rfl, scanChecked_eq (Nat.zero_add _).le, List.drop_zero, List.take_length]
  | @buckets hlarge sorted hperm hsorted =>
    have hpos : 0 < lookupBuckets es := bucketsFor_pos es.length (es.length * 2) 1 Nat.one_pos
    generalize lookupSeed es = seed at hsorted ⊢
    generalize lookupBuckets es = m at hpos hsorted ⊢
    have hlt : bucketOf seed m k < m := lt_of_le_of_lt Nat.and_le_right (by omega)
    have hmono : sorted.countP (bucketOf seed m ·.key < bucketOf seed m k) ≤
        sorted.countP (bucketOf seed m ·.key < bucketOf seed m k + 1) :=
      List.countP_mono_left fun e _ he => decide_eq_true (Nat.lt_succ_of_lt (of_decide_eq_true he))
    have hinside : sorted.countP (bucketOf seed m ·.key < bucketOf seed m k + 1) ≤ sorted.length :=
      List.countP_le_length
    rw [if_neg hpos.ne']
    simp only
    rw [readAt_start seed m hperm hlt.le,
      readAt_start seed m hperm (b := bucketOf seed m k + 1) hlt]
    show scanChecked sorted k _ _ = _
    rw [scanChecked_eq (by omega), ← List.drop_take,
      slice_eq_filter (g := fun e : LookupEntry => bucketOf seed m e.key)
        (hsorted.imp fun h => h.elim le_of_lt fun h => h.1.le)]
    have hmem : ∀ i, LookupEntry.mk k i ∈ sorted.filter (bucketOf seed m ·.key = bucketOf seed m k)
      ↔ ⟨k, i⟩ ∈ es := by
      intro i
      rw [List.mem_filter, hperm.mem_iff]
      exact and_iff_left (decide_eq_true rfl)
    have hsame : sorted.Pairwise fun a b => a.key = b.key → a.index ≤ b.index :=
      hsorted.imp fun h heq => h.elim (fun hlt => absurd (heq ▸ hlt) (lt_irrefl _)) fun h => h.2
    congr 1
    apply Option.ext
    intro i
    rw [scan_eq_least (hsame.filter _), scan_eq_least hord, hmem]
    simp only [hmem]

/-- The table of a list with distinct keys, whatever its size and the seed, finds the index of a key
and nothing for any other string, without an access outside its arrays. -/
theorem lookup_finds (es : List LookupEntry) (t : LookupTable) (q : Bytes)
    (hdistinct : (es.map LookupEntry.key).Nodup) (ht : IsLookup es t) :
    t.findChecked q = .ok (scan es q) ∧ (∀ i, scan es q = some i ↔ ⟨q, i⟩ ∈ es) ∧
      (scan es q = none ↔ q ∉ es.map LookupEntry.key) ∧ ∀ x ∈ t.bucketStart, x ≤ es.length := by
  have hne : es.Pairwise fun a b => a.key ≠ b.key := List.pairwise_map.1 hdistinct
  refine ⟨findChecked_eq_scan (hne.imp fun h heq => absurd heq h) ht q,
    fun i => scan_eq_some hdistinct, ?_, start_le ht⟩
  unfold scan
  rw [Option.map_eq_none_iff, List.find?_eq_none, List.mem_map]
  constructor
  · rintro hnone ⟨e, he, rfl⟩
    exact hnone e he (decide_eq_true rfl)
  · intro hnone e he heq
    exact hnone ⟨e, he, of_decide_eq_true heq⟩

/-- Nine one-letter keys, one more than are scanned. -/
def letters : List LookupEntry := (List.range 9).map fun i => ⟨[UInt8.ofNat (0x61 + i)], i⟩

theorem lookup_finds_letters :
    (buildLookup letters).findChecked [0x69] = .ok (scan letters [0x69]) :=
  (lookup_finds letters (buildLookup letters) [0x69] (by decide) (isLookup_buildLookup letters)).1

end VCodec
