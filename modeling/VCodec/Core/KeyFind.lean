import VCodec.Core.Keys

/-!
# Looking up an integer key

`key_table::find` with its 64-bit subtraction and its array accesses checked. On every table that
`build_key_table` makes of distinct keys no access leaves its array. The subtraction from the key in
a dense table overflows where a key stands far above a negative base, and only there the search
fails to find what `KeyTable.find` finds (`KeyTable.findChecked_iff`).
-/

namespace VCodec

/-- What a run of the code may not do. -/
inductive Fault
  | overflow
  | bounds
  deriving DecidableEq, Repr

def IsInt64 (i : Int) : Prop := -(int64Max : Int) - 1 ≤ i ∧ i ≤ int64Max

instance (i : Int) : Decidable (IsInt64 i) := inferInstanceAs (Decidable (_ ∧ _))

/-- A subtraction of 64-bit integers. -/
def sub64 (a b : Int) : Except Fault Int :=
  if IsInt64 (a - b) then .ok (a - b) else .error .overflow

/-- An access to an array. -/
def readAt {α : Type} (xs : List α) (i : Nat) : Except Fault α :=
  match xs[i]? with
  | some x => .ok x
  | none => .error .bounds

/-- `build_key_table`. It is run by the compiler, which refuses an overflow. -/
def buildKeyTable (keys : List IntKey) (es : List (Int × Nat)) : Except Fault KeyTable := do
  let es := es.insertionSort fun a b => a.1 ≤ b.1
  match es.head?, es.getLast? with
  | some lo, some hi =>
    let span ← sub64 hi.1 lo.1
    if span < 256 then
      let slots := (List.range (span + 1).toNat).map fun (j : Nat) =>
        (es.find? fun e => e.1 - lo.1 = j).map (·.2)
      return { keys := keys, dense := true, base := lo.1, slots := slots }
    else return { keys := keys, sorted := es }
  | _, _ => return { keys := keys }

def searchChecked (es : List (Int × Nat)) (k : Int) : Nat → Nat → Nat → Except Fault (Option Nat)
  | 0, _, _ => .ok none
  | fuel + 1, lo, hi =>
    if lo < hi then do
      let mid := (lo + hi) / 2
      let e ← readAt es mid
      if e.1 < k then searchChecked es k fuel (mid + 1) hi
      else if k < e.1 then searchChecked es k fuel lo mid
      else return some e.2
    else .ok none

/-- `key_table::find`, `none` for `npos`. -/
def KeyTable.findChecked (t : KeyTable) (k : Int) : Except Fault (Option Nat) :=
  if t.dense then
    if k < t.base then .ok none
    else do
      let d ← sub64 k t.base
      if t.slots.length ≤ d then return none else readAt t.slots d.toNat
  else searchChecked t.sorted k (t.sorted.length + 1) 0 t.sorted.length

variable {keys : List IntKey} {es : List (Int × Nat)} {t : KeyTable} {k : Int}

theorem sub64_eq_ok {a b d : Int} : sub64 a b = .ok d ↔ IsInt64 (a - b) ∧ d = a - b := by
  rw [sub64]
  split
  · rename_i h
    rw [Except.ok.injEq]
    exact ⟨fun heq => ⟨h, heq.symm⟩, fun heq => heq.2.symm⟩
  · rename_i h
    exact iff_of_false nofun fun heq => h heq.1

theorem readAt_eq {α : Type} {xs : List α} {i : Nat} (h : i < xs.length) :
    readAt xs i = .ok xs[i] := by
  rw [readAt, List.getElem?_eq_getElem h]

/-- The binary search stays inside the array. -/
theorem searchChecked_eq {fuel lo hi : Nat} (hhi : hi ≤ es.length) :
    searchChecked es k fuel lo hi = .ok (searchKeys es k fuel lo hi) := by
  induction fuel generalizing lo hi with
  | zero => rfl
  | succ fuel ih =>
    rw [searchChecked, searchKeys]
    split
    · rename_i hlt
      have hmid : (lo + hi) / 2 < es.length := by omega
      dsimp only
      rw [readAt_eq hmid, List.getElem?_eq_getElem hmid]
      show (if es[(lo + hi) / 2].1 < k then searchChecked es k fuel ((lo + hi) / 2 + 1) hi
        else if k < es[(lo + hi) / 2].1 then searchChecked es k fuel lo ((lo + hi) / 2)
        else .ok (some es[(lo + hi) / 2].2)) = _
      dsimp only
      split
      · exact ih hhi
      split
      · exact ih (by omega)
      · rfl
    · rfl

/-- The table is the one that the decoder uses. -/
theorem buildKeyTable_eq (hbuild : buildKeyTable keys es = .ok t) : t = .build keys es := by
  unfold buildKeyTable at hbuild
  unfold KeyTable.build
  simp only at hbuild ⊢
  generalize es.insertionSort (fun a b => a.1 ≤ b.1) = es at hbuild ⊢
  split
  · rename_i lo hi hlo hhi
    rw [hlo, hhi] at hbuild
    dsimp only at hbuild
    cases hspan : sub64 hi.1 lo.1 with
    | error f =>
      rw [hspan] at hbuild
      cases hbuild
    | ok span =>
      rw [hspan] at hbuild
      obtain ⟨-, rfl⟩ := sub64_eq_ok.1 hspan
      change (if hi.1 - lo.1 < 256 then _ else _) = Except.ok t at hbuild
      split at hbuild
      · rename_i hdense
        cases hbuild
        rw [if_pos hdense]
      · rename_i hsparse
        cases hbuild
        rw [if_neg hsparse]
  · rename_i hnone
    cases hlo : es.head? with
    | none =>
      rw [hlo] at hbuild
      cases hbuild
      rfl
    | some lo =>
      cases hhi : es.getLast? with
      | none =>
        rw [hlo, hhi] at hbuild
        cases hbuild
        rfl
      | some hi => exact absurd hhi (hnone lo hi hlo)

theorem ofIndex_injective {a b : Option Nat} (h : Resolution.ofIndex a = .ofIndex b) : a = b := by
  cases a with
  | none =>
    cases b with
    | none => rfl
    | some b => cases h
  | some a =>
    cases b with
    | none => cases h
    | some b =>
      cases h
      rfl

/-- Where the subtraction does not overflow, the checked search is the search. -/
theorem findChecked_eq (hreach : t.dense = true → k - t.base ≤ int64Max) {o : Option Nat}
    (hfind : t.find k = .ofIndex o) : t.findChecked k = .ok o := by
  rw [KeyTable.findChecked]
  rw [KeyTable.find] at hfind
  split
  · rename_i hdense
    have hle := hreach hdense
    rw [if_pos hdense] at hfind
    split
    · rename_i hbelow
      rw [if_pos hbelow] at hfind
      rw [← ofIndex_injective (a := none) hfind]
    · rename_i hge
      have hsub : sub64 k t.base = .ok (k - t.base) := sub64_eq_ok.2 ⟨⟨by omega, hle⟩, rfl⟩
      rw [if_neg hge, if_neg (not_lt.2 hle)] at hfind
      rw [hsub]
      show (if (t.slots.length : Int) ≤ k - t.base then .ok none else readAt t.slots
        (k - t.base).toNat) = Except.ok o
      split
      · rename_i habove
        rw [if_pos habove] at hfind
        rw [← ofIndex_injective (a := none) hfind]
      · rename_i hin
        have hlt : (k - t.base).toNat < t.slots.length := by omega
        rw [if_neg hin, List.getD_eq_getElem?_getD, List.getElem?_eq_getElem hlt,
          Option.getD_some] at hfind
        rw [readAt_eq hlt, ofIndex_injective hfind]
  · rename_i hsparse
    rw [if_neg hsparse] at hfind
    rw [searchChecked_eq le_rfl, ofIndex_injective hfind]

/-- The overflow ends the search. -/
theorem findChecked_overflow (hdense : t.dense = true) (hfar : int64Max < k - t.base) :
    t.findChecked k = .error .overflow := by
  have hsub : sub64 k t.base = .error .overflow := if_neg fun h => absurd h.2 (not_le.2 hfar)
  rw [KeyTable.findChecked, if_pos hdense, if_neg (by omega), hsub]
  rfl

/-- A search with all of its steps allowed finds the member that has the key, in every table and for
every key but those out of reach of a dense table with a negative base. -/
theorem KeyTable.findChecked_iff (keys : List IntKey) (es : List (Int × Nat))
    (t : KeyTable) (k : Int) (hkeys : (es.map Prod.fst).Nodup)
    (hbuild : buildKeyTable keys es = .ok t) :
    (∃ o, t.findChecked k = .ok o ∧ ∀ i, o = some i ↔ (k, i) ∈ es) ↔
      (t.dense = true → k - t.base ≤ int64Max) := by
  constructor
  · rintro ⟨o, hrun, -⟩ hdense
    by_contra hfar
    rw [findChecked_overflow hdense (not_le.1 hfar)] at hrun
    cases hrun
  · intro hreach
    obtain rfl := buildKeyTable_eq hbuild
    obtain ⟨o, hfind, hmem⟩ := KeyTable.find_build hkeys hreach
    exact ⟨o, findChecked_eq hreach hfind, hmem⟩

/-- Keys as they are usual in COSE. -/
theorem KeyTable.findChecked_iff_small :
    (∃ o, (KeyTable.build [] [(-1, 0), (3, 1)]).findChecked 3 = .ok o ∧
      ∀ i, o = some i ↔ (3, i) ∈ [((-1 : Int), 0), (3, 1)]) ↔
      ((KeyTable.build [] [(-1, 0), (3, 1)]).dense = true →
        3 - (KeyTable.build [] [(-1, 0), (3, 1)]).base ≤ int64Max) :=
  KeyTable.findChecked_iff [] [(-1, 0), (3, 1)] _ 3 (by decide) rfl

/-- The largest key that the input can hold, against a negative one. -/
theorem KeyTable.findChecked_not_total :
    ¬ ∀ (keys : List IntKey) (es : List (Int × Nat)) (t : KeyTable) (k : Int),
      (es.map Prod.fst).Nodup →
      (∀ e ∈ es, IsInt64 e.1) → buildKeyTable keys es = .ok t → IsInt64 k →
      ∃ o, t.findChecked k = .ok o ∧ ∀ i, o = some i ↔ (k, i) ∈ es := by
  intro hall
  obtain ⟨o, hrun, -⟩ := hall [] [(-1, 0)] _ int64Max (by decide) (by decide) rfl (by decide)
  rw [findChecked_overflow (by decide) (by decide)] at hrun
  cases hrun

end VCodec
