import VCodec.Cbor.Api
import Mathlib.Order.Bounds.Basic

/-!
# Declaration-order keys

The fields that `collect_fields` makes of a class, the audit of `check_type`, and the keys that
`allocated_key` gives to the members of a class declared `cbor::integer_keys`.
-/

namespace VCodec.Cbor

/-! ### Classes -/

/-- The annotations of a class that `check_type` looks at. -/
structure ClassAnns where
  integerKeys : Bool := false
  indefinite : Bool := false
  deterministic : Bool := false

mutual

/-- A class as reflection shows it, without what `collect_fields` refuses (virtual bases, anonymous
members, cycles). -/
inductive ClassDecl
  | mk (name : Bytes) (anns : ClassAnns) (bases : List ClassDecl) (members : List MemberDecl)

/-- A member is skipped, spliced into the class, or a field with or without a `cbor::key`. -/
inductive MemberDecl
  | skip (identifier : Bytes)
  | flatten (identifier : Bytes) (c : ClassDecl)
  | field (identifier : Bytes) (key : Option Int)

end

def ClassDecl.name : ClassDecl → Bytes
  | .mk n _ _ _ => n

def ClassDecl.anns : ClassDecl → ClassAnns
  | .mk _ a _ _ => a

def ClassDecl.members : ClassDecl → List MemberDecl
  | .mk _ _ _ ms => ms

def MemberDecl.identifier : MemberDecl → Bytes
  | .skip i => i
  | .flatten i _ => i
  | .field i _ => i

/-- An entry of `fields_of`. -/
structure FieldEntry where
  identifier : Bytes
  key : Option Int
  owner : Bytes
  ownerAnns : ClassAnns
  flattened : Bool
  inherited : Bool

/-- `Owner::member`. -/
def FieldEntry.qualified (f : FieldEntry) : Bytes := f.owner ++ str "::" ++ f.identifier

mutual

/-- Bases first, then the members, all in declaration order. -/
def collectFields (viaFlatten viaBase : Bool) : ClassDecl → List FieldEntry
  | .mk n a bs ms => collectBases viaFlatten bs ++ collectMembers viaFlatten viaBase n a ms

def collectBases (viaFlatten : Bool) : List ClassDecl → List FieldEntry
  | [] => []
  | b :: bs => collectFields viaFlatten true b ++ collectBases viaFlatten bs

def collectMember (viaFlatten viaBase : Bool) (owner : Bytes) (ownerAnns : ClassAnns) :
    MemberDecl → List FieldEntry
  | .skip _ => []
  | .flatten _ c => collectFields true viaBase c
  | .field identifier key =>
    [{ identifier, key, owner, ownerAnns, flattened := viaFlatten, inherited := viaBase }]

def collectMembers (viaFlatten viaBase : Bool) (owner : Bytes) (ownerAnns : ClassAnns) :
    List MemberDecl → List FieldEntry
  | [] => []
  | m :: ms =>
    collectMember viaFlatten viaBase owner ownerAnns m ++
      collectMembers viaFlatten viaBase owner ownerAnns ms

end

def ClassDecl.fields (c : ClassDecl) : List FieldEntry := collectFields false false c

def ClassDecl.owner (c : ClassDecl) : Owner :=
  { integerKeys := c.anns.integerKeys, members := c.fields.map fun f => (f.identifier, f.key) }

/-! ### The audit -/

def spansMessage (f : FieldEntry) : Bytes :=
  str "(declared [[=cbor::integer_keys]]) has a flattened or inherited member " ++ f.qualified ++
    str ";\n  declaration-order key allocation is not defined across a flatten or a base class.\n  Give every member an explicit [[=vcodec::cbor::key(n)]]."

def flattensMessage (f : FieldEntry) : Bytes :=
  str "flattens " ++ f.owner ++
    str ", which is declared [[=cbor::integer_keys]];\n  declaration-order keys do not survive a flatten. Give " ++ f.owner ++
    str "'s members explicit [[=vcodec::cbor::key(n)]]."

def indefiniteMessage : Bytes :=
  str "is declared both [[=cbor::indefinite]] and [[=cbor::deterministic]]; deterministic encoding forbids indefinite lengths."

/-- `check_type`: empty if the class is accepted. A flattened field is never the class's own, since
a cycle is refused before. -/
def checkType (c : ClassDecl) : Bytes :=
  match if c.anns.integerKeys then c.fields.find? fun f => f.flattened || f.inherited else none with
  | some f => spansMessage f
  | none =>
    match c.fields.find? fun f => f.flattened && f.ownerAnns.integerKeys with
    | some f => flattensMessage f
    | none => if c.anns.indefinite && c.anns.deterministic then indefiniteMessage else []

/-! ### What the audit leaves -/

mutual

/-- What is reached through a flatten or a base class is marked so. -/
theorem mem_collectFields {viaFlatten viaBase : Bool} {f : FieldEntry} (c : ClassDecl)
    (hf : f ∈ collectFields viaFlatten viaBase c) :
    (viaFlatten → f.flattened) ∧ (viaBase → f.inherited) := by
  cases c with
  | mk n a bs ms =>
    rw [collectFields, List.mem_append] at hf
    rcases hf with hf | hf
    · obtain ⟨hflat, hbase⟩ := mem_collectBases bs hf
      exact ⟨hflat, fun _ => hbase⟩
    · exact mem_collectMembers ms hf

theorem mem_collectBases {viaFlatten : Bool} {f : FieldEntry} (bs : List ClassDecl)
    (hf : f ∈ collectBases viaFlatten bs) : (viaFlatten → f.flattened) ∧ f.inherited := by
  cases bs with
  | nil => cases hf
  | cons b bs =>
    rw [collectBases, List.mem_append] at hf
    rcases hf with hf | hf
    · obtain ⟨hflat, hbase⟩ := mem_collectFields b hf
      exact ⟨hflat, hbase rfl⟩
    · exact mem_collectBases bs hf

theorem mem_collectMember {viaFlatten viaBase : Bool} {n : Bytes} {a : ClassAnns} {f : FieldEntry}
    (m : MemberDecl) (hf : f ∈ collectMember viaFlatten viaBase n a m) :
    (viaFlatten → f.flattened) ∧ (viaBase → f.inherited) := by
  cases m with
  | skip i => cases hf
  | flatten i c =>
    obtain ⟨hflat, hbase⟩ := mem_collectFields c hf
    exact ⟨fun _ => hflat rfl, hbase⟩
  | field i k =>
    obtain rfl := List.mem_singleton.1 hf
    exact ⟨id, id⟩

theorem mem_collectMembers {viaFlatten viaBase : Bool} {n : Bytes} {a : ClassAnns} {f : FieldEntry}
    (ms : List MemberDecl) (hf : f ∈ collectMembers viaFlatten viaBase n a ms) :
    (viaFlatten → f.flattened) ∧ (viaBase → f.inherited) := by
  cases ms with
  | nil => cases hf
  | cons m ms =>
    rw [collectMembers, List.mem_append] at hf
    rcases hf with hf | hf
    · exact mem_collectMember m hf
    · exact mem_collectMembers ms hf

end

/-- A class that the audit lets have `integer_keys` has only fields of its own. -/
theorem own_of_checkType {c : ClassDecl} (hkeys : c.anns.integerKeys) (hok : checkType c = []) :
    ∀ f ∈ c.fields, f.flattened = false ∧ f.inherited = false := by
  intro f hf
  cases hfind : c.fields.find? (fun f => f.flattened || f.inherited) with
  | some g =>
    rw [checkType, if_pos hkeys, hfind] at hok
    exact absurd hok
      (List.append_ne_nil_of_left_ne_nil (List.append_ne_nil_of_left_ne_nil (by decide) _) _)
  | none =>
    have hnone := List.find?_eq_none.1 hfind f hf
    rwa [Bool.not_eq_true, Bool.or_eq_false_iff] at hnone

theorem collectMember_eq {vf vb : Bool} {n : Bytes} {a : ClassAnns} {m : MemberDecl}
    (hown : ∀ f ∈ collectMember vf vb n a m, f.flattened = false) :
    ((collectMember vf vb n a m).map FieldEntry.identifier).Sublist [m.identifier] := by
  cases m with
  | skip i => exact List.nil_sublist _
  | flatten i c =>
    have hnil : collectMember vf vb n a (.flatten i c) = [] := by
      apply List.eq_nil_iff_forall_not_mem.2
      intro f hf
      have hspliced : f ∈ collectFields true vb c := hf
      have hflat := (mem_collectFields c hspliced).1 rfl
      rw [hown f hf] at hflat
      cases hflat
    rw [hnil]
    exact List.nil_sublist _
  | field i k => exact List.Sublist.refl _

theorem collectMembers_sublist {vf vb : Bool} {n : Bytes} {a : ClassAnns} {ms : List MemberDecl}
    (hown : ∀ f ∈ collectMembers vf vb n a ms, f.flattened = false) :
    ((collectMembers vf vb n a ms).map FieldEntry.identifier).Sublist
      (ms.map MemberDecl.identifier) := by
  induction ms with
  | nil => exact List.nil_sublist _
  | cons m ms ih =>
    rw [collectMembers] at hown ⊢
    rw [List.map_append, List.map_cons]
    exact (collectMember_eq fun f hf => hown f (List.mem_append_left _ hf)).append
      (ih fun f hf => hown f (List.mem_append_right _ hf))

/-- The identifiers of an accepted class are those of its own members, in declaration order. -/
theorem identifiers_of_checkType
    {c : ClassDecl} (hkeys : c.anns.integerKeys) (hok : checkType c = []) :
    (c.fields.map FieldEntry.identifier).Sublist (c.members.map MemberDecl.identifier) := by
  have hown := own_of_checkType hkeys hok
  cases c with
  | mk n a bs ms =>
    have hbases : collectBases false bs = [] := by
      apply List.eq_nil_iff_forall_not_mem.2
      intro f hf
      have hbase := (mem_collectBases bs hf).2
      rw [(hown f (List.mem_append_left _ hf)).2] at hbase
      cases hbase
    have hfields : (ClassDecl.mk n a bs ms).fields = collectMembers false false n a ms := by
      rw [ClassDecl.fields, collectFields, hbases, List.nil_append]
    rw [hfields] at hown ⊢
    exact collectMembers_sublist fun f hf => (hown f hf).1

/-! ### The allocation -/

section

variable (taken : List Int)

/-- How many of the taken keys are still ahead. -/
def ahead (next : Int) : Nat := taken.countP (next ≤ ·)

/-- The keys of all members without one, in declaration order. -/
def allocations : Int → List (Bytes × Option Int) → List (Bytes × Int)
  | _, [] => []
  | next, (name, key) :: ms =>
    if key.isSome then allocations next ms
    else
      let k := bump taken taken.length next
      (name, k) :: allocations (k + 1) ms

variable {taken}

theorem ahead_succ_of_mem {next : Int} (h : next ∈ taken) :
    ahead taken (next + 1) < ahead taken next := by
  unfold ahead
  induction taken with
  | nil => cases h
  | cons t ts ih =>
    rw [List.countP_cons, List.countP_cons]
    have hmono : ts.countP (next + 1 ≤ ·) ≤ ts.countP (next ≤ ·) :=
      List.countP_mono_left fun t _ ht => by
        have := of_decide_eq_true ht
        exact decide_eq_true (by omega)
    simp only [decide_eq_true_eq]
    rcases List.mem_cons.1 h with rfl | h
    · rw [if_neg (by omega), if_pos (le_refl _)]
      omega
    · have hless := ih h
      by_cases hle : next + 1 ≤ t
      · rw [if_pos hle, if_pos (by omega)]
        omega
      · rw [if_neg hle]
        omega

theorem ahead_succ_of_not_mem {next : Int} (h : next ∉ taken) :
    ahead taken (next + 1) = ahead taken next := by
  apply List.countP_congr
  intro t ht
  have hne : next ≠ t := fun heq => h (heq ▸ ht)
  simp only [decide_eq_true_eq]
  omega

/-- The scan ends at the least integer from `next` on that is not taken, and uses up the taken ones
it passes. -/
theorem bump_spec {fuel : Nat} {next : Int} (hfuel : ahead taken next ≤ fuel) :
    IsLeast {k | next ≤ k ∧ k ∉ taken} (bump taken fuel next) ∧
      bump taken fuel next + ahead taken (bump taken fuel next) ≤ next + ahead taken next := by
  induction fuel generalizing next with
  | zero =>
    have hfree : next ∉ taken := fun hmem => by
      have := ahead_succ_of_mem hmem
      omega
    exact ⟨⟨⟨le_refl _, hfree⟩, fun k hk => hk.1⟩, le_refl _⟩
  | succ fuel ih =>
    rw [bump]
    split
    · rename_i hmem
      have hless := ahead_succ_of_mem hmem
      obtain ⟨⟨⟨hle, hfree⟩, hleast⟩, hbound⟩ := @ih (next + 1) (by omega)
      refine ⟨⟨⟨by omega, hfree⟩, fun k hk => hleast ⟨?_, hk.2⟩⟩, by omega⟩
      have hne : next ≠ k := fun heq => hk.2 (heq ▸ hmem)
      have := hk.1
      omega
    · rename_i hfree
      exact ⟨⟨⟨le_refl _, hfree⟩, fun k hk => hk.1⟩, le_refl _⟩

theorem bump_taken (next : Int) :
    IsLeast {k | next ≤ k ∧ k ∉ taken} (bump taken taken.length next) ∧
      bump taken taken.length next + ahead taken (bump taken taken.length next) ≤
        next + ahead taken next :=
  bump_spec List.countP_le_length

/-- Each key is the least free one behind the key before it. -/
inductive Allocates (taken : List Int) : Int → List Int → Prop
  | nil {next : Int} : Allocates taken next []
  | cons {next k : Int} {ks : List Int} (hk : IsLeast {k | next ≤ k ∧ k ∉ taken} k)
      (hks : Allocates taken (k + 1) ks) :
      Allocates taken next (k :: ks)

theorem allocates_allocations (next : Int) (ms : List (Bytes × Option Int)) :
    Allocates taken next ((allocations taken next ms).map Prod.snd) := by
  induction ms generalizing next with
  | nil => exact .nil
  | cons m ms ih =>
    rw [allocations]
    split
    · exact ih next
    · exact .cons (bump_taken next).1 (ih _)

theorem allocations_le (next : Int) (ms : List (Bytes × Option Int)) :
    ∀ a ∈ allocations taken next ms,
      a.2 < next + ahead taken next + (allocations taken next ms).length := by
  induction ms generalizing next with
  | nil => exact fun a ha => nomatch ha
  | cons m ms ih =>
    rw [allocations]
    split
    · exact ih next
    · obtain ⟨⟨⟨-, hfree⟩, -⟩, hbound⟩ := @bump_taken taken next
      generalize bump taken taken.length next = k at hfree hbound ⊢
      intro a ha
      rw [List.length_cons]
      rcases List.mem_cons.1 ha with rfl | ha
      · simp only
        omega
      · have hrest := ih (k + 1) a ha
        rw [ahead_succ_of_not_mem hfree] at hrest
        omega

variable {next : Int} {ks : List Int}

theorem Allocates.free (h : Allocates taken next ks) : ∀ k ∈ ks, next ≤ k ∧ k ∉ taken := by
  induction h with
  | nil => exact fun k hk => nomatch hk
  | cons hleast _ ih =>
    intro k hk
    rcases List.mem_cons.1 hk with rfl | hk
    · exact hleast.1
    · have hbehind := ih k hk
      have := hleast.1.1
      exact ⟨by omega, hbehind.2⟩

theorem Allocates.ascending (h : Allocates taken next ks) : ks.Pairwise (· < ·) := by
  induction h with
  | nil => exact .nil
  | cons _ hks ih => exact .cons (fun k hk => (hks.free k hk).1) ih

theorem Allocates.isLeast (h : Allocates taken next ks) {i : Nat} (hi : i < ks.length) :
    IsLeast {k | next ≤ k ∧ k ∉ taken ∧ ∀ p ∈ ks.take i, p < k} ks[i] := by
  induction h generalizing i with
  | nil => exact absurd hi (Nat.not_lt_zero i)
  | @cons next k ks hleast hks ih =>
    cases i with
    | zero =>
      exact ⟨⟨hleast.1.1, hleast.1.2, fun p hp => nomatch hp⟩, fun k hk => hleast.2 ⟨hk.1, hk.2.1⟩⟩
    | succ i =>
      have hi' : i < ks.length := Nat.lt_of_succ_lt_succ hi
      obtain ⟨⟨hle, hfree, hbefore⟩, hmin⟩ := ih hi'
      have hfirst := hleast.1.1
      refine ⟨⟨?_, hfree, ?_⟩, ?_⟩
      · show next ≤ ks[i]
        omega
      · rw [List.take_succ_cons]
        exact List.forall_mem_cons.2 ⟨hle, hbefore⟩
      · intro j hj
        obtain ⟨-, hfree', hbefore'⟩ := hj
        rw [List.take_succ_cons, List.forall_mem_cons] at hbefore'
        exact hmin ⟨hbefore'.1, hfree', hbefore'.2⟩

/-- In an ascending list, only the last key of a front matters. -/
theorem forall_take_lt {i : Nat} (h : ks.Pairwise (· < ·)) (k : Int) :
    (∀ p ∈ ks.take i, p < k) ↔ ∀ p ∈ (ks.take i).getLast?, p < k := by
  constructor
  · intro hall p hp
    exact hall p (List.mem_of_getLast? hp)
  · intro hlast p hp
    obtain ⟨l, hl⟩ : ∃ l, (ks.take i).getLast? = some l :=
      Option.isSome_iff_exists.1 (List.getLast?_isSome.2 (List.ne_nil_of_mem hp))
    obtain ⟨front, hfront⟩ := List.getLast?_eq_some_iff.1 hl
    have hsorted : (front ++ [l]).Pairwise (· < ·) := hfront ▸ h.sublist (List.take_sublist i ks)
    have hlk := hlast l hl
    rw [hfront, List.mem_append] at hp
    rcases hp with hp | hp
    · have := (List.pairwise_append.1 hsorted).2.2 p hp l (List.mem_singleton_self l)
      omega
    · rwa [List.mem_singleton.1 hp]

/-! ### The keys of a class -/

theorem allocateFrom_eq (identifier : Bytes) (next : Int) (ms : List (Bytes × Option Int)) :
    allocateFrom taken identifier next ms =
      ((allocations taken next ms).find? (·.1 = identifier)).map Prod.snd := by
  induction ms generalizing next with
  | nil => rfl
  | cons m ms ih =>
    rw [allocateFrom, allocations]
    split
    · exact ih next
    · simp only [List.find?_cons]
      by_cases hname : m.1 = identifier
      · rw [if_pos hname, decide_eq_true hname]
        rfl
      · rw [if_neg hname, decide_eq_false hname]
        exact ih _

theorem allocations_names (next : Int) (ms : List (Bytes × Option Int)) :
    (allocations taken next ms).map Prod.fst = (ms.filter (·.2.isNone)).map Prod.fst := by
  induction ms generalizing next with
  | nil => rfl
  | cons m ms ih =>
    obtain ⟨name, key⟩ := m
    cases key with
    | some k => exact ih next
    | none => exact congrArg (name :: ·) (ih _)

/-- Among entries of distinct names each is found by its own. -/
theorem map_find_names {as : List (Bytes × Int)} (h : (as.map Prod.fst).Nodup) :
    (as.map Prod.fst).map (fun n => (as.find? (·.1 = n)).map Prod.snd) =
      (as.map Prod.snd).map some := by
  rw [List.map_map, List.map_map]
  apply List.map_congr_left
  intro a ha
  cases hfind : as.find? (·.1 = a.1) with
  | none => exact absurd (decide_eq_true rfl) (List.find?_eq_none.1 hfind a ha)
  | some b =>
    have hname : b.1 = a.1 :=
      of_decide_eq_true (List.find?_some (p := fun c : Bytes × Int => decide (c.1 = a.1)) hfind)
    have hsame : b = a := List.inj_on_of_nodup_map h (List.mem_of_find?_eq_some hfind) ha hname
    rw [Function.comp_apply, hfind, hsame]
    rfl

theorem length_keys (ms : List (Bytes × Option Int)) :
    (ms.filterMap Prod.snd).length + (ms.filter (·.2.isNone)).length = ms.length := by
  induction ms with
  | nil => rfl
  | cons m ms ih =>
    obtain ⟨name, key⟩ := m
    cases key with
    | some k =>
      simp only [List.filterMap_cons, List.filter_cons, Option.isNone_some, Bool.false_eq_true,
        if_false, List.length_cons]
      omega
    | none =>
      simp only [List.filterMap_cons, List.filter_cons, Option.isNone_none, if_true,
        List.length_cons]
      omega

end

/-- The explicit keys of a class. -/
def ClassDecl.taken (c : ClassDecl) : List Int := c.fields.filterMap FieldEntry.key

/-- The members that a key is allocated to. -/
def ClassDecl.remaining (c : ClassDecl) : List FieldEntry := c.fields.filter (·.key.isNone)

theorem ClassDecl.taken_eq (c : ClassDecl) : c.owner.members.filterMap Prod.snd = c.taken := by
  rw [ClassDecl.owner, List.filterMap_map]
  rfl

theorem ClassDecl.remaining_eq (c : ClassDecl) :
    (c.owner.members.filter (·.2.isNone)).map Prod.fst = c.remaining.map FieldEntry.identifier := by
  rw [ClassDecl.owner, List.filter_map, List.map_map]
  rfl

/-- The remaining members of an accepted class get ascending positive keys, none of them explicit,
each the least free one behind the key before it. None exceeds the number of members, so the 64-bit
counter does not wrap. -/
theorem allocated_keys (c : ClassDecl) (hkeys : c.anns.integerKeys) (hok : checkType c = [])
    (hdistinct : (c.members.map MemberDecl.identifier).Nodup) :
    ∃ ks : List Int, c.remaining.map (fun f => allocatedKey c.owner f.identifier) = ks.map some ∧
      ks.Pairwise (· < ·) ∧ (∀ k ∈ ks, k ∉ c.taken) ∧
      (∀ (i : Nat) (hi : i < ks.length),
        IsLeast {k | 0 < k ∧ k ∉ c.taken ∧ ∀ p ∈ (ks.take i).getLast?, p < k} ks[i]) ∧
      ∀ k ∈ ks, k ≤ c.fields.length := by
  have hnames : ((allocations c.taken 1 c.owner.members).map Prod.fst).Nodup := by
    rw [allocations_names, c.remaining_eq]
    exact (hdistinct.sublist (identifiers_of_checkType hkeys hok)).sublist
      (List.filter_sublist.map _)
  have hallocates := @allocates_allocations c.taken 1 c.owner.members
  have hfound := map_find_names hnames
  rw [allocations_names, c.remaining_eq, List.map_map] at hfound
  refine ⟨(allocations c.taken 1 c.owner.members).map Prod.snd, ?_, hallocates.ascending,
    fun k hk => (hallocates.free k hk).2, fun i hi => ?_, fun k hk => ?_⟩
  · rw [← hfound]
    apply List.map_congr_left
    intro f _
    have howner : c.owner.integerKeys = true := hkeys
    rw [allocatedKey, if_pos howner, c.taken_eq, allocateFrom_eq]
    rfl
  · have hleast := hallocates.isLeast hi
    simp only [forall_take_lt hallocates.ascending] at hleast
    exact hleast
  · obtain ⟨a, ha, rfl⟩ := List.mem_map.1 hk
    have hbound := allocations_le 1 c.owner.members a ha
    have hahead : ahead c.taken 1 ≤ c.taken.length := List.countP_le_length
    have hcount := length_keys c.owner.members
    have hnumber : (allocations c.taken 1 c.owner.members).length =
      (c.owner.members.filter (·.2.isNone)).length := by
      rw [← List.length_map Prod.fst, allocations_names, List.length_map]
    have hfields : c.owner.members.length = c.fields.length := List.length_map _
    rw [c.taken_eq] at hcount
    omega

/-- `Claims` of the documentation, with an explicit key that displaces the third. -/
def claims : ClassDecl :=
  .mk (str "Claims") { integerKeys := true } []
    [.field (str "iss") none, .field (str "exp") none, .field (str "cti") (some 3),
      .field (str "admin") none]

theorem allocated_keys_claims : ∃ ks : List Int,
    claims.remaining.map (fun f => allocatedKey claims.owner f.identifier) = ks.map some ∧
      ks.Pairwise (· < ·) ∧ ∀ k ∈ ks, k ∉ claims.taken := by
  obtain ⟨ks, hks, hasc, hfree, -⟩ := allocated_keys claims rfl (by decide) (by decide)
  exact ⟨ks, hks, hasc, hfree⟩

end VCodec.Cbor
