import VCodec.Cbor.Landing
import VCodec.Core.Rules

/-!
# Documents that fit

The document of a value of its type has its numbers in their ranges, its counts are those of its
parts, and no part of it is longer than the whole.
-/

namespace VCodec.Cbor

/-! ### Lengths -/

theorem makeHead_pos (m : Major) (n : Nat) : 0 < (makeHead m n).length := by
  unfold makeHead
  repeat' split
  all_goals exact Nat.succ_pos _

theorem intHead_pos (i : Int) : 0 < (intHead i).length := by
  unfold intHead
  split <;> exact makeHead_pos _ _

theorem wireKey_pos (k : DocKey) : 0 < (wireKey k).length := by
  cases k with
  | text k | name k =>
    rw [wireKey, encodeTextKey, List.length_append]
    exact Nat.add_pos_left (makeHead_pos _ _) _
  | uint n => exact makeHead_pos _ _
  | sint i | intName i => exact intHead_pos i

theorem length_chunks (m : Major) {n : Nat} {t : Bytes} (h : t.length ≤ n) :
    t.length ≤ (chunks m n t).length := by
  induction n generalizing t with
  | zero => exact h.trans (Nat.zero_le _)
  | succ n ih =>
    rw [chunks]
    split
    · rename_i hnil
      rw [hnil, List.length_nil]
    · rename_i hne
      have hpos := List.length_pos_iff.2 hne
      have hdrop : (t.drop chunkSize).length ≤ n := by
        rw [List.length_drop, chunkSize]
        omega
      have hrest := ih hdrop
      have hsplit := congrArg List.length (List.take_append_drop chunkSize t)
      simp only [List.length_append] at hsplit ⊢
      omega

section

variable (o : Options)

theorem length_textBytes (indefinite : Bool) (t : Bytes) :
    t.length ≤ (textBytes o indefinite t).length := by
  unfold textBytes
  have hchunks := length_chunks .text (le_refl t.length)
  split
  · rw [List.length_cons, List.length_append]
    omega
  · rw [List.length_append]
    omega

theorem length_bytesBytes (indefinite : Bool) (t : Bytes) :
    t.length ≤ (bytesBytes o indefinite t).length := by
  unfold bytesBytes
  have hchunks := length_chunks .bytes (le_refl t.length)
  split
  · rw [List.length_cons, List.length_append]
    omega
  · rw [List.length_append]
    omega

theorem length_openBytes (m : Major) (n : Option Nat) (body : Bytes) :
    body.length < (openBytes m n body).length := by
  cases n with
  | none =>
    rw [openBytes, List.length_append, List.length_append]
    exact Nat.lt_add_of_pos_right Nat.one_pos |>.trans_le
      (Nat.add_le_add_right (Nat.le_add_left _ _) _)
  | some n =>
    rw [openBytes, List.length_append]
    exact Nat.lt_add_of_pos_left (makeHead_pos m n)

theorem length_arrayBytes (indefinite : Bool) (n : Option Nat) (items : List Bytes) :
    items.flatten.length < (arrayBytes o indefinite n items).length := by
  unfold arrayBytes
  split
  · rw [List.length_append]
    exact Nat.lt_add_of_pos_left (makeHead_pos _ _)
  · exact length_openBytes _ _ _

theorem length_mapBytes (indefinite : Bool) (n : Option Nat) (kvs : List (Bytes × Bytes)) :
    (entryBytes kvs).length < (mapBytes o indefinite n kvs).length := by
  unfold mapBytes
  split
  · have hperm : (sortEntriesBytes kvs).Perm kvs := List.perm_insertionSort _ _
    have hlen : (entryBytes (sortEntriesBytes kvs)).length = (entryBytes kvs).length :=
      (hperm.flatMap_right _).length_eq
    rw [List.length_append, hlen]
    exact Nat.lt_add_of_pos_left (makeHead_pos _ _)
  · exact length_openBytes _ _ _

theorem wire_pos (d : Doc) : 0 < (wire o d).length := by
  cases d with
  | null | boolean b => exact Nat.one_pos
  | uint f n => exact makeHead_pos _ _
  | sint f i => exact intHead_pos i
  | real f x =>
    rw [wire, ← floatHead_bytes, Head.bytes_length]
    omega
  | text f t =>
    rw [wire, textBytes]
    split
    · exact Nat.succ_pos _
    · rw [List.length_append]
      exact Nat.add_pos_left (makeHead_pos _ _) _
  | bytes f t =>
    rw [wire, bytesBytes]
    split
    · exact Nat.succ_pos _
    · rw [List.length_append]
      exact Nat.add_pos_left (makeHead_pos _ _) _
  | range t v | tag n d =>
    rw [wire, List.length_append]
    exact Nat.add_pos_left (makeHead_pos _ _) _
  | array f n ds => exact (Nat.zero_le _).trans_lt (length_arrayBytes _ _ _ _)
  | map f n es => exact (Nat.zero_le _).trans_lt (length_mapBytes _ _ _ _)
  | members n es => exact (Nat.zero_le _).trans_lt (length_openBytes _ _ _)

/-- No part is longer than all parts, and no part is empty. -/
theorem parts_length {α : Type} {g : α → Bytes} {as : List α} (hpos : ∀ a ∈ as, 0 < (g a).length) :
    as.length ≤ (as.flatMap g).length ∧ ∀ a ∈ as, (g a).length ≤ (as.flatMap g).length := by
  induction as with
  | nil => exact ⟨Nat.le_refl _, List.forall_mem_nil _⟩
  | cons a as ih =>
    obtain ⟨hpos, hrest⟩ := List.forall_mem_cons.1 hpos
    obtain ⟨hlen, hparts⟩ := ih hrest
    rw [List.flatMap_cons, List.length_append, List.length_cons]
    refine ⟨by omega, List.forall_mem_cons.2 ⟨Nat.le_add_right _ _, fun b hb => ?_⟩⟩
    exact (hparts b hb).trans (Nat.le_add_left _ _)

theorem array_parts {f : FieldMeta} {n : Option Nat} {ds : List Doc}
    (hlen : (wire o (.array f n ds)).length < 2 ^ 63) :
    ds.length < 2 ^ 63 ∧ ∀ d ∈ ds, (wire o d).length < 2 ^ 63 := by
  obtain ⟨hcount, hparts⟩ := parts_length (g := wire o) fun d (_ : d ∈ ds) => wire_pos o d
  have hbody : (ds.flatMap (wire o)).length < 2 ^ 63 := by
    rw [wire, wireEach_eq] at hlen
    exact (length_arrayBytes o _ _ _).trans hlen
  exact ⟨hcount.trans_lt hbody, fun d hd => (hparts d hd).trans_lt hbody⟩

theorem entries_parts {es : List (DocKey × Doc)}
    {k : Nat} (hlen : (entryBytes (wireEntries o es)).length < k) :
    es.length < k ∧ ∀ e ∈ es, (wireKey e.1).length < k ∧ (wire o e.2).length < k := by
  obtain ⟨hcount, hparts⟩ :=
    parts_length (g := fun e : DocKey × Doc => wireKey e.1 ++ wire o e.2) fun e (_ : e ∈ es) => by
    rw [List.length_append]
    exact Nat.add_pos_left (wireKey_pos _) _
  have hbody : (es.flatMap fun e => wireKey e.1 ++ wire o e.2).length < k := by
    rw [wireEntries_eq, entryBytes, List.flatMap_map] at hlen
    exact hlen
  refine ⟨hcount.trans_lt hbody, fun e he => ?_⟩
  have hpart := (hparts e he).trans_lt hbody
  rw [List.length_append] at hpart
  omega

theorem key_length (k : Bytes) : k.length ≤ (encodeTextKey k).length := by
  rw [encodeTextKey, List.length_append]
  exact Nat.le_add_left _ _

end

/-! ### The documents of values -/

/-- The numbers of the annotations and the clocks have the types that the source gives them. -/
structure Typed (env : Env) : Prop where
  keys : ∀ id, ∀ f ∈ (env.structs id).fields, ∀ k, integerKey (env.structs id) f = some k →
    Int64Range k
  memberTags : ∀ id, ∀ f ∈ (env.structs id).fields, ∀ n ∈ f.info.tags, n < 2 ^ 64
  structTags : ∀ id, ∀ n ∈ (env.structs id).tags, n < 2 ^ 64
  seconds : ∀ d v, Int64Range (env.secondsOfTime d v)

section

variable {env : Env} {F : Format} (o : Options)

theorem int_range {k : IntTy} {i : Int} (h : k.Holds i) :
    if k.signed then Int64Range i else i.toNat < 2 ^ 64 := by
  split
  · rename_i hsigned
    have hmin := IntTy.min_signed hsigned
    have hmax := IntTy.max_signed hsigned
    exact ⟨hmin.trans h.1, lt_of_le_of_lt h.2 hmax⟩
  · rename_i hsigned
    have hmax := IntTy.max_unsigned (Bool.eq_false_of_not_eq_true hsigned)
    have hhi := h.2
    omega

theorem fits_int (f : FieldMeta) {k : IntTy} {i : Int} (h : k.Holds i) : Fits (intDoc f k i) := by
  have hrange := int_range h
  unfold intDoc
  split
  · rename_i hsigned
    rw [if_pos hsigned] at hrange
    exact hrange
  · rename_i hsigned
    rw [if_neg hsigned] at hrange
    exact hrange

theorem fits_keyOf (ht : Typed env) {id : Nat} {f : Field} (hf : f ∈ (env.structs id).fields)
    (hlen : (wireKey (keyOf traits (env.structs id) f)).length < 2 ^ 63) :
    FitsKey (keyOf traits (env.structs id) f) := by
  unfold keyOf at hlen ⊢
  cases hk : traits.integerKey (env.structs id) f with
  | some k => exact ht.keys id f hf k hk
  | none =>
    rw [hk] at hlen
    exact (key_length _).trans_lt hlen

theorem wholeSeconds_range {x : Double} {i : Int} (h : wholeSeconds x = some i) : Int64Range i := by
  unfold wholeSeconds at h
  simp only at h
  split at h
  · rename_i hwhole
    have hlt : doubleFormat.units x.mag / 2 ^ doubleFormat.scale < 9000000000000000 :=
      Nat.div_lt_of_lt_mul (by rw [Nat.mul_comm]; exact hwhole.2)
    generalize doubleFormat.units x.mag / 2 ^ doubleFormat.scale = n at h hlt
    unfold Int64Range
    cases h
    split <;> omega
  · cases h

theorem fits_tags {ts : List Nat} {d : Doc} (hts : ∀ n ∈ ts, n < 2 ^ 64)
    (hd : (wire o d).length < 2 ^ 63 → Fits d)
    (hlen : (wire o (ts.foldr Doc.tag d)).length < 2 ^ 63) :
    Fits (ts.foldr Doc.tag d) := by
  induction ts with
  | nil => exact hd hlen
  | cons n ts ih =>
    obtain ⟨hn, hts⟩ := List.forall_mem_cons.1 hts
    rw [List.foldr_cons, wire, List.length_append] at hlen
    exact ⟨hn, ih hts (by omega)⟩

theorem fits_array {f : FieldMeta} {n : Option Nat} {ds : List Doc}
    (hcount : ∀ c ∈ n, c = ds.length) (hds : ∀ d ∈ ds, (wire o d).length < 2 ^ 63 → Fits d)
    (hlen : (wire o (.array f n ds)).length < 2 ^ 63) :
    Fits (.array f n ds) := by
  obtain ⟨hcounts, hparts⟩ := array_parts o hlen
  exact ⟨hcounts, hcount, fitsEach_iff.2 fun d hd => hds d hd (hparts d hd)⟩

/-- The parts of the entries of an object fit if they are not too long. -/
abbrev EntriesFit (es : List (DocKey × Doc)) : Prop :=
  ∀ e ∈ es, ((wireKey e.1).length < 2 ^ 63 → FitsKey e.1) ∧
    ((wire o e.2).length < 2 ^ 63 → Fits e.2)

theorem fits_entries {es : List (DocKey × Doc)} (hes : EntriesFit o es)
    (hlen : (entryBytes (wireEntries o es)).length < 2 ^ 63) :
    es.length < 2 ^ 63 ∧ FitsEntries es := by
  obtain ⟨hcounts, hparts⟩ := entries_parts o hlen
  exact ⟨hcounts, fitsEntries_iff.2 fun e he =>
    ⟨(hes e he).1 (hparts e he).1, (hes e he).2 (hparts e he).2⟩⟩

theorem fits_map {f : FieldMeta} {n : Option Nat} {es : List (DocKey × Doc)}
    (hcount : ∀ c ∈ n, c = es.length) (hes : EntriesFit o es)
    (hlen : (wire o (.map f n es)).length < 2 ^ 63) : Fits (.map f n es) := by
  obtain ⟨hcounts, hfits⟩ := fits_entries o hes ((length_mapBytes o _ _ _).trans hlen)
  exact ⟨hcounts, hcount, hfits⟩

theorem fits_members {n : Nat} {es : List (DocKey × Doc)} (hcount : n = es.length)
    (hes : EntriesFit o es) (hlen : (wire o (.members n es)).length < 2 ^ 63) :
    Fits (.members n es) := by
  obtain ⟨hcounts, hfits⟩ := fits_entries o hes ((length_openBytes _ _ _).trans hlen)
  exact ⟨hcounts, hcount, hfits⟩

theorem expectedTags_lt (ht : Typed env) {f : FieldMeta} (hf : ∀ n ∈ f.tags, n < 2 ^ 64) (t : Ty) :
    ∀ n ∈ expectedTags env f t, n < 2 ^ 64 := by
  unfold expectedTags
  split
  · exact hf
  cases t with
  | time c => exact List.forall_mem_singleton.2 (by decide)
  | struct id => exact ht.structTags id
  | _ => exact List.forall_mem_nil _

/-- A document that is not too long fits. -/
def fitsRules (ht : Typed env) : DocRules env traits memberOrder where
  doc d := (wire o d).length < 2 ^ 63 → Fits d
  key k := (wireKey k).length < 2 ^ 63 → FitsKey k
  info f := ∀ n ∈ f.tags, n < 2 ^ 64
  info_none := List.forall_mem_nil _
  info_member := ht.memberTags
  null _ := trivial
  boolean _ _ := trivial
  int _ hi _ := fits_int _ hi
  real _ _ := trivial
  text _ hlen := (length_textBytes o _ _).trans_lt hlen
  bytes _ hlen := (length_bytesBytes o _ _).trans_lt hlen
  seconds c v _ := ht.seconds c v
  wholeSeconds h _ := wholeSeconds_range h
  range t v hlen := by
    rw [wire, List.length_append, List.length_append] at hlen
    show (rangeData t v).length < 2 ^ 63
    omega
  tags hf hd hlen := fits_tags o (expectedTags_lt ht hf _) hd hlen
  array _ hcount hds hlen := fits_array o hcount hds hlen
  map _ hcount hes hlen := fits_map o hcount hes hlen
  members hcount hes _ hlen := fits_members o hcount hes hlen
  key_text k hlen := (key_length k).trans_lt hlen
  key_value hlen := (key_length _).trans_lt hlen
  key_int {k i} hi _ := by
    have hrange := int_range hi
    split
    · rename_i hsigned
      rw [if_pos hsigned] at hrange
      exact hrange
    · rename_i hsigned
      rw [if_neg hsigned] at hrange
      exact hrange
  key_member _ f hf hlen := fits_keyOf ht hf hlen

/-- The document of a top-level value fits, if what is written of it is not too long. -/
theorem fits_top (ht : Typed env) {t : Ty} {v : Val} {d : Doc} (hv : Inhabits env t v)
    (h : lowerTop env traits memberOrder t v = some d) (hlen : (wire o d).length < 2 ^ 63) :
    Fits d :=
  (fitsRules o ht).lowerTop memberOrder_perm hv h hlen

end

end VCodec.Cbor
