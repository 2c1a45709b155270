import VCodec.Core.Keys
import VCodec.Core.LandsMember
import Mathlib.Data.List.ReduceOption

/-!
# Reading the document of a struct

The entry of a member leads back to the member, wherever it stands, and what stands in an object for
a member without an entry is what its declaration says. The discriminator of a variant is read over.
-/

namespace VCodec

open D

variable {σ S M : Type} {env : Env} {F : Format} {r : Reader σ S M} {L : DocLaws env F r}

/-! ### Keys -/

section

variable {id i : Nat} {f : Field}

theorem Vetted.find (ha : Vetted env F) (hf : (env.structs id).fields[i]? = some f) :
    (env.structs id).find f.wireName = some i := by
  refine findIdx?_eq_of_unique hf (decide_eq_true (.inl rfl)) fun j g hg hname => ?_
  refine nodup_flatMap_index (ha.names id) hg hf (b := f.wireName) ?_ (.head _)
  rcases of_decide_eq_true hname with h | h
  · exact h ▸ .head _
  · exact .tail _ h

theorem Vetted.findKey (ha : Vetted env F) (hf : (env.structs id).fields[i]? = some f) {k : Int}
    (hk : F.traits.integerKey (env.structs id) f = some k) :
    (env.structs id).fields.findIdx?
      (fun g => F.traits.integerKey (env.structs id) g = some k) = some i := by
  refine findIdx?_eq_of_unique hf (decide_eq_true hk) fun j g hg hkey => ?_
  have hnodup := ha.keys id
  rw [List.filterMap_eq_flatMap_toList] at hnodup
  exact nodup_flatMap_index hnodup hg hf (b := k) (Option.mem_toList.2 (of_decide_eq_true hkey))
    (Option.mem_toList.2 hk)

theorem DocLaws.shown_keyOf (L : DocLaws env F r) (d : StructDef) (f : Field) :
    F.shown (keyOf F.traits d f) =
      match F.traits.integerKey d f with
      | some k => .int k
      | none => .text f.wireName := by
  unfold keyOf
  cases F.traits.integerKey d f with
  | some k => exact L.shown_intName k
  | none => exact L.shown_name f.wireName

/-- The key that is written for a member names it. -/
theorem resolve_keyOf (L : DocLaws env F r) (ha : Vetted env F)
    (hf : (env.structs id).fields[i]? = some f) :
    (env.structs id).resolve r (F.shown (keyOf F.traits (env.structs id) f)) = some i := by
  rw [L.shown_keyOf]
  cases hk : F.traits.integerKey (env.structs id) f with
  | some k =>
    simp only [StructDef.resolve, L.traits]
    exact ha.findKey hf hk
  | none =>
    simp only [StructDef.resolve, ha.find hf, hf, L.traits, hk, Option.isSome_none,
      Bool.false_eq_true, false_and, if_false]

/-- The key of an entry is read as it is shown. -/
theorem readEntryKey_at {d : StructDef} {dk : DocKey} {s u : σ} {old : Val} (hat : L.AtKey dk s u)
    (hint : ∀ k, F.shown dk = .int k → (∃ g ∈ d.fields, F.traits.integerKey d g = some k) ∧
      k ≤ int64Max) :
    ∃ w, readEntryKey r d { reader := s, out := old } =
      .ok (.ok (F.shown dk)) { reader := w, out := old } ∧ L.Same w u := by
  have hany : ∀ {kind}, (∃ t, r.keyKind s = .ok kind t ∧ L.Same t s) →
    (kind = .text ∨ d.anyIntegerKey r = true) →
      ∃ t, entryKeyKind r d { reader := s, out := old } = .ok kind { reader := t, out := old } ∧
        L.Same t s := by
    rintro kind ⟨t, ht, hsame⟩ hkind
    unfold entryKeyKind
    split
    · exact ⟨t, call_of_ok ht, hsame⟩
    · rename_i hnone
      obtain rfl := hkind.resolve_right hnone
      exact ⟨s, rfl, L.same_refl s⟩
  unfold readEntryKey
  cases hshown : F.shown dk with
  | text x =>
    obtain ⟨t, hkind, hsame⟩ := hany (L.key_kind hat hshown) (.inl rfl)
    obtain ⟨ref, w, hw, hend, htext, -⟩ := L.key_text (L.atKey_same hsame hat) hshown
    refine ⟨w, ?_, hend⟩
    rw [Run.bind_of_ok hkind, if_neg (by decide), if_neg (by decide), call_bind hw, htext]
    rfl
  | int k =>
    obtain ⟨⟨g, hg, hgk⟩, hmax⟩ := hint k hshown
    have hanyKey : d.anyIntegerKey r = true := by
      unfold StructDef.anyIntegerKey
      rw [List.any_eq_true, L.traits]
      exact ⟨g, hg, by rw [hgk]; rfl⟩
    cases k with
    | ofNat n =>
      obtain ⟨t, hkind, hsame⟩ := hany (L.key_uint hat hshown).1 (.inr hanyKey)
      obtain ⟨-, w, hw, hend⟩ := L.key_uint (L.atKey_same hsame hat) hshown
      refine ⟨w, ?_, hend⟩
      have hle : ¬ int64Max < n := not_lt.2 (Int.ofNat_le.1 hmax)
      rw [Run.bind_of_ok hkind, if_pos rfl, call_bind hw, if_neg hle]
      rfl
    | negSucc n =>
      obtain ⟨t, hkind, hsame⟩ := hany (L.key_sint hat hshown).1 (.inr hanyKey)
      obtain ⟨-, w, hw, hend⟩ := L.key_sint (L.atKey_same hsame hat) hshown
      refine ⟨w, ?_, hend⟩
      rw [Run.bind_of_ok hkind, if_neg (by decide), if_pos rfl, call_bind hw]
      rfl

end

/-! ### Entries -/

/-- An entry that is read over: the discriminator, or a member that is not to be decoded. -/
def Skips (F : Format) (d : StructDef) (ignoreKey : Bytes) (k : DocKey) : Prop :=
  (ignoreKey ≠ [] ∧ d.find ignoreKey = none ∧ k = .text ignoreKey) ∨
    ∃ (i : Nat) (f : Field), d.fields[i]? = some f ∧ f.skipDeserializing = true ∧
      k = keyOf F.traits d f

/-- What stands at an entry: nothing that is read, or the value of a member. -/
def MemberLands (L : DocLaws env F r) (n₀ : Nat) (dec : Nat → FieldMeta → Ty → D σ Unit)
    (d : StructDef) (ignoreKey : Bytes) (vs : List Val) (old : Val) (P : Nat → Prop)
    (x : DocKey × Doc) : Option Nat → Prop
  | none => Skips F d ignoreKey x.1
  | some i =>
    ∃ f v, d.fields[i]? = some f ∧ vs[i]? = some v ∧ f.skipDeserializing = false ∧
      x.1 = keyOf F.traits d f ∧
    ∀ s u, L.At x.2 s u →
      Lands L n₀ (fun n => dec n f.info f.ty) { reader := s, out := old.item i } u (P i)
        (Like env f.ty v)

/-- An object of the struct. -/
def Filled (d : StructDef) (v : Val) : Prop := ∃ ws, v = .seq ws ∧ ws.length = d.fields.length

theorem Filled.setItem {d : StructDef} {v : Val} (h : Filled d v) (i : Nat) (w : Val) :
    Filled d (Val.setItem i v w) := by
  obtain ⟨ws, rfl, hlen⟩ := h
  exact ⟨_, rfl, List.length_set.trans hlen⟩

theorem Filled.item_self {d : StructDef} {v : Val} (h : Filled d v) {i : Nat} {f : Field}
    (hf : d.fields[i]? = some f) (w : Val) : (Val.setItem i v w).item i = w := by
  obtain ⟨ws, rfl, hlen⟩ := h
  have hlt : i < ws.length := hlen ▸ (List.getElem?_eq_some_iff.1 hf).1
  rw [item_setItem, if_pos ⟨rfl, hlt⟩]

theorem item_other {i j : Nat} (h : i ≠ j) (v w : Val) : (Val.setItem i v w).item j = v.item j := by
  rw [item_setItem, if_neg fun h' => h h'.1]

section

variable {id : Nat} {ignoreKey : Bytes} {vs : List Val} {old : Val} {P : Nat → Prop} {n₀ : Nat}
  {dec : Nat → FieldMeta → Ty → D σ Unit}

/-- The key of a member is one that the struct's keys are told apart by. -/
theorem keyOf_int (L : DocLaws env F r) (ha : Vetted env F) {i : Nat} {f : Field}
    (hf : (env.structs id).fields[i]? = some f)
    {k : Int} (hk : F.shown (keyOf F.traits (env.structs id) f) = .int k) :
    (∃ g ∈ (env.structs id).fields, F.traits.integerKey (env.structs id) g = some k) ∧
      k ≤ int64Max := by
  have hmem := List.mem_of_getElem? hf
  rw [L.shown_keyOf] at hk
  cases hkey : F.traits.integerKey (env.structs id) f with
  | some k' =>
    rw [hkey] at hk
    cases hk
    exact ⟨⟨f, hmem, hkey⟩, ha.integers id f hmem _ hkey⟩
  | none =>
    rw [hkey] at hk
    cases hk

variable (dec) in
theorem structEntry_skips (L : DocLaws env F r) (ha : Vetted env F) {x : DocKey × Doc}
    (hx : Skips F (env.structs id) ignoreKey x.1)
    (n off : Nat) (seen : List Nat) (out : Val) {s u : σ} (hat : L.At x.2 s u) :
    ∃ w, structEntry r (dec n) (env.structs id) ignoreKey off seen
      (.ok (F.shown x.1)) { reader := s, out := out } =
      .ok seen { reader := w, out := out } ∧ L.Same w u := by
  obtain ⟨w, hw, hsame⟩ := L.skip hat
  have hskip : (call r.skipValue : D σ Unit) { reader := s, out := out } =
    .ok () { reader := w, out := out } := call_of_ok hw
  refine ⟨w, ?_, hsame⟩
  rcases hx with ⟨hne, hfind, hkey⟩ | ⟨i, f, hf, hflag, hkey⟩
  · have hresolve : (env.structs id).resolve r (.text ignoreKey) = none := by
      simp only [StructDef.resolve, hfind]
    have hentry : unknownEntry r (env.structs id) ignoreKey off (.text ignoreKey) =
      call r.skipValue := by
      unfold unknownEntry
      rw [if_pos ⟨hne, rfl⟩]
    rw [hkey, L.shown_text, structEntry, hresolve]
    simp only [hentry]
    exact Run.bind_of_ok hskip _
  · have hentry : ∀ key, memberEntry r (dec n) i f off key seen = call r.skipValue := by
      intro key
      unfold memberEntry
      rw [if_pos hflag]
    rw [hkey, structEntry, resolve_keyOf L ha hf]
    simp only [hf, hentry, if_pos hflag]
    exact Run.bind_of_ok hskip _

variable (ignoreKey) in
theorem structEntry_member (L : DocLaws env F r) (ha : Vetted env F) {i : Nat} {f : Field}
    (hf : (env.structs id).fields[i]? = some f)
    (hread : f.skipDeserializing = false) (off : Nat) {n : Nat} {seen seen' : List Nat}
    (hnew : i ∉ seen) {b b' : Build σ} :
    structEntry r (dec n) (env.structs id) ignoreKey off seen
      (.ok (F.shown (keyOf F.traits (env.structs id) f))) b =
        .ok seen' b' ↔
      seen' = i :: seen ∧ ∃ b₁, dec n f.info f.ty { b with out := b.out.item i } = .ok () b₁ ∧
        b' = { b₁ with out := Val.setItem i b.out b₁.out } := by
  have herrors := L.errors
  have hentry : ∀ key, memberEntry r (dec n) i f off key seen =
      inStep r (·.pushMember f.info.identifier) (onItem i (dec n f.info f.ty)) := by
    intro key
    unfold memberEntry
    rw [if_neg (by rw [hread]; exact Bool.false_ne_true), if_neg fun h => hnew h.1,
      if_neg fun h => hnew h.1]
    funext b
    unfold recover
    rw [herrors]
  rw [structEntry, resolve_keyOf L ha hf]
  simp only [hf, hentry, Run.bind_eq_ok, L.inStep_eq_ok, hread, Bool.false_eq_true, if_false,
    pure_eq_ok, onItem,
    focus_eq_ok]
  constructor
  · rintro ⟨_, _, ⟨b₁, hdec, rfl⟩, rfl, rfl⟩
    exact ⟨rfl, b₁, hdec, rfl⟩
  · rintro ⟨rfl, b₁, hdec, rfl⟩
    exact ⟨(), _, ⟨b₁, hdec, rfl⟩, rfl, rfl⟩

/-- The key of an entry is read as one that the loop knows. -/
theorem MemberLands.readKey (ha : Vetted env F) {x : DocKey × Doc} {o : Option Nat}
    (h : MemberLands L n₀ dec (env.structs id) ignoreKey vs old P x o)
    (out : Val) {s u : σ} (hat : L.AtKey x.1 s u) :
    ∃ w, readEntryKey r (env.structs id) { reader := s, out := out } =
      .ok (.ok (F.shown x.1)) { reader := w, out := out } ∧ L.Same w u := by
  refine readEntryKey_at hat fun k hk => ?_
  cases o with
  | none =>
    rcases h with ⟨-, -, hkey⟩ | ⟨i, f, hf, -, hkey⟩
    · rw [hkey, L.shown_text] at hk
      cases hk
    · exact keyOf_int L ha hf (hkey ▸ hk)
  | some i =>
    obtain ⟨f, v, hf, -, -, hkey, -⟩ := h
    exact keyOf_int L ha hf (hkey ▸ hk)

theorem structLoop_ends (ha : Vetted env F) {n : Nat} {xs : List (DocKey × Doc)}
    {os : List (Option Nat)}
    (h : List.Forall₂ (MemberLands L n₀ dec (env.structs id) ignoreKey vs old P) xs os)
    {fuel : Nat} {c : M} {seen seen' : List Nat} {b b' : Build σ} {u : σ}
    (hnodup : os.reduceOption.Nodup) (hseen : ∀ i ∈ os.reduceOption, i ∉ seen)
    (hold : ∀ i ∈ os.reduceOption, b.out.item i = old.item i)
    (hfilled : Filled (env.structs id) b.out)
    (hin : L.InMap c xs b.reader u)
    (hrun : structLoop r (dec n) (env.structs id) ignoreKey fuel c seen b = .ok seen' b') :
    L.Same b'.reader u ∧ Filled (env.structs id) b'.out ∧
      (∀ i, i ∈ seen' ↔ i ∈ seen ∨ i ∈ os.reduceOption) ∧
      (∀ i, i ∉ os.reduceOption → b'.out.item i = b.out.item i) ∧
      ∀ i ∈ os.reduceOption, ∀ f v, (env.structs id).fields[i]? = some f → vs[i]? = some v →
        (Like env f.ty v (b'.out.item i) ↔ P i) := by
  induction h generalizing fuel c seen b with
  | nil =>
    cases fuel with
    | zero => exact absurd hrun throw_ne_ok
    | succ fuel =>
      obtain ⟨c', s', hnext, hsame⟩ := L.key_done hin
      rw [structLoop, call_bind hnext] at hrun
      simp only [Bool.false_eq_true, if_false, pure_eq_ok] at hrun
      obtain ⟨rfl, rfl⟩ := hrun
      refine ⟨hsame, hfilled, fun i => ?_, fun _ _ => rfl, List.forall_mem_nil _⟩
      exact (or_iff_left List.not_mem_nil).symm
  | @cons x o xs os hx _ ih =>
    cases fuel with
    | zero => exact absurd hrun throw_ne_ok
    | succ fuel =>
      obtain ⟨k, d⟩ := x
      obtain ⟨c', s₁, t₁, u₁, hnext, hkey, hat, hrest⟩ := L.key_more hin
      obtain ⟨off, s₂, hoff, hs₂⟩ := L.offset s₁
      obtain ⟨w, hread, hw⟩ := hx.readKey ha b.out (L.atKey_same hs₂ hkey)
      rw [structLoop, call_bind hnext] at hrun
      simp only [if_true] at hrun
      rw [call_bind hoff, Run.bind_of_ok hread, Run.bind_eq_ok] at hrun
      obtain ⟨seen₁, b₁, hentry, hrun⟩ := hrun
      cases o with
      | none =>
        obtain ⟨w', hskip, hsame⟩ :=
          structEntry_skips dec L ha hx n off seen b.out (L.at_same hw hat)
        have hentry' := hskip.symm.trans hentry
        cases hentry'
        rw [List.reduceOption_cons_of_none] at hnodup hseen hold ⊢
        exact ih (b := { reader := w', out := b.out }) hnodup hseen hold hfilled
          (L.inMap_same hsame hrest) hrun
      | some i =>
        rw [List.reduceOption_cons_of_some] at hnodup hseen hold ⊢
        obtain ⟨hi, hnodup⟩ := List.nodup_cons.1 hnodup
        obtain ⟨f, v, hf, hv, hflag, hk, hlands⟩ := hx
        obtain rfl : k = _ := hk
        obtain ⟨rfl, b₂, hdec, rfl⟩ :=
          (structEntry_member _ L ha hf hflag _ (hseen i (.head _))).1 hentry
        simp only [hold i (.head _)] at hdec
        obtain ⟨hsame, hlike⟩ := (hlands _ _ (L.at_same hw hat)).ends n b₂ hdec
        have hother : ∀ j ∈ os.reduceOption, i ≠ j := fun j hj hij => hi (hij ▸ hj)
        obtain ⟨hend, hfill, hmem, hframe, hall⟩ :=
          ih (b := { b₂ with out := Val.setItem i b.out b₂.out }) hnodup
          (fun j hj hmem => by
            rcases List.mem_cons.1 hmem with rfl | hmem
            · exact hi hj
            · exact hseen j (.tail _ hj) hmem)
          (fun j hj => (item_other (hother j hj) _ _).trans (hold j (.tail _ hj)))
          (hfilled.setItem i b₂.out) (L.inMap_same hsame hrest) hrun
        refine ⟨hend, hfill, fun j => ?_, fun j hj => ?_, fun j hj g w hg hw' => ?_⟩
        · rw [hmem, List.mem_cons, List.mem_cons, or_assoc, or_left_comm]
        · rw [List.mem_cons, not_or] at hj
          rw [hframe j hj.2, item_other (Ne.symm hj.1)]
        · rcases List.mem_cons.1 hj with rfl | hj
          · rw [hf] at hg
            rw [hv] at hw'
            cases hg
            cases hw'
            rw [hframe j hi, hfilled.item_self hf]
            exact hlike
          · exact hall j hj g w hg hw'

theorem structLoop_returns (ha : Vetted env F) {n : Nat} (hn : n₀ ≤ n) {xs : List (DocKey × Doc)}
    {os : List (Option Nat)}
    (h : List.Forall₂ (MemberLands L n₀ dec (env.structs id) ignoreKey vs old P) xs os)
    (hP : ∀ i ∈ os.reduceOption, P i) {fuel : Nat} {c : M} {seen : List Nat} {b : Build σ} {u : σ}
    (hfuel : xs.length < fuel) (hnodup : os.reduceOption.Nodup)
    (hseen : ∀ i ∈ os.reduceOption, i ∉ seen)
    (hold : ∀ i ∈ os.reduceOption, b.out.item i = old.item i) (hin : L.InMap c xs b.reader u) :
    ∃ seen' b', structLoop r (dec n) (env.structs id) ignoreKey fuel c seen b = .ok seen' b' := by
  induction h generalizing fuel c seen b with
  | nil =>
    obtain ⟨fuel, rfl⟩ : ∃ j, fuel = j + 1 := ⟨fuel - 1, by omega⟩
    obtain ⟨c', s', hnext, -⟩ := L.key_done hin
    refine ⟨seen, { b with reader := s' }, ?_⟩
    rw [structLoop, call_bind hnext]
    rfl
  | @cons x o xs os hx _ ih =>
    obtain ⟨fuel, rfl⟩ : ∃ j, fuel = j + 1 := ⟨fuel - 1, by omega⟩
    obtain ⟨k, d⟩ := x
    obtain ⟨c', s₁, t₁, u₁, hnext, hkey, hat, hrest⟩ := L.key_more hin
    obtain ⟨off, s₂, hoff, hs₂⟩ := L.offset s₁
    obtain ⟨w, hread, hw⟩ := hx.readKey ha b.out (L.atKey_same hs₂ hkey)
    have hlt : xs.length < fuel := Nat.lt_of_succ_lt_succ hfuel
    rw [structLoop, call_bind hnext]
    simp only [if_true]
    rw [call_bind hoff, Run.bind_of_ok hread]
    cases o with
    | none =>
      obtain ⟨w', hskip, hsame⟩ := structEntry_skips dec L ha hx n off seen b.out (L.at_same hw hat)
      rw [List.reduceOption_cons_of_none] at hP hnodup hseen hold
      rw [Run.bind_of_ok hskip]
      exact ih hP (b := { reader := w', out := b.out }) hlt hnodup hseen hold
        (L.inMap_same hsame hrest)
    | some i =>
      rw [List.reduceOption_cons_of_some] at hP hnodup hseen hold
      obtain ⟨hi, hnodup⟩ := List.nodup_cons.1 hnodup
      obtain ⟨f, v, hf, hv, hflag, hk, hlands⟩ := hx
      obtain rfl : k = _ := hk
      have hlands := hlands _ _ (L.at_same hw hat)
      obtain ⟨b₂, hdec⟩ := hlands.returns (hP i (.head _)) n hn
      obtain ⟨hsame, -⟩ := hlands.ends n b₂ hdec
      rw [← hold i (.head _)] at hdec
      have hentry := (structEntry_member ignoreKey L ha hf hflag off (hseen i (.head _))
        (b := { reader := w, out := b.out })).2 ⟨rfl, b₂, hdec, rfl⟩
      rw [Run.bind_of_ok hentry]
      refine ih (fun j hj => hP j (.tail _ hj)) (b := { b₂ with out := Val.setItem i b.out b₂.out })
        hlt hnodup
        (fun j hj hmem => ?_) (fun j hj => ?_) (L.inMap_same hsame hrest)
      · rcases List.mem_cons.1 hmem with rfl | hmem
        · exact hi hj
        · exact hseen j (.tail _ hj) hmem
      · have hij : i ≠ j := fun hij => hi (hij ▸ hj)
        exact (item_other hij _ _).trans (hold j (.tail _ hj))

/-! ### Members without an entry -/

theorem restored_of_skip {f : Field} (h : f.skipDeserializing = true) (old : Val) :
    f.restored old = old := by
  unfold Field.restored
  rw [if_pos h]

/-- A required member that is missing is an error. -/
theorem reportMissing_ne (L : DocLaws env F r) {fuel off save : Nat} {d : StructDef} {f : Field}
    {m : Option Error} {b b' : Build σ} : reportMissing r fuel d off save f m b ≠ .ok none b' := by
  have herrors := L.errors
  intro hrun
  cases m with
  | some e => cases hrun
  | none =>
    obtain ⟨e, b₁, -, hrun⟩ := Run.bind_eq_ok.1 hrun
    rw [herrors] at hrun
    cases hrun

/-- A member that may be missing is restored. -/
theorem missingMember_eq_ok
    (L : DocLaws env F r) {fuel off save i : Nat} {d : StructDef} {f : Field}
    (hread : f.skipDeserializing = false) {m : Option Error} {b b' : Build σ} (hb : Filled d b.out)
    (hf : d.fields[i]? = some f) :
    missingMember r fuel d off save i f m b = .ok none b' →
      f.required = false ∧ m = none ∧ b'.reader = b.reader ∧ Filled d b'.out ∧
        b'.out.item i = f.restored (b.out.item i) ∧ ∀ j, j ≠ i → b'.out.item j = b.out.item j := by
  intro hrun
  unfold missingMember at hrun
  split at hrun
  · exact absurd hrun (reportMissing_ne L)
  · rename_i hrequired
    refine ⟨by simpa using hrequired, ?_⟩
    unfold Field.restored
    rw [if_neg (by rw [hread]; exact Bool.false_ne_true)]
    cases hdefault : f.default with
    | some v =>
      simp only [hdefault, Run.bind_eq_ok, onItem, focus_eq_ok, setOut_eq_ok, pure_eq_ok] at hrun
      obtain ⟨_, _, ⟨_, rfl, rfl⟩, rfl, rfl⟩ := hrun
      exact ⟨rfl, rfl, hb.setItem i _, hb.item_self hf _, fun j hj => item_other (Ne.symm hj) _ _⟩
    | none =>
      simp only [hdefault, pure_eq_ok] at hrun
      obtain ⟨rfl, rfl⟩ := hrun
      exact ⟨rfl, rfl, hb, rfl, fun _ _ => rfl⟩

theorem missingMember_none
    (L : DocLaws env F r) {fuel off save i : Nat} {d : StructDef} {f : Field} {m : Option Error}
    {b b' : Build σ} (hrun : missingMember r fuel d off save i f m b = .ok none b') : m = none := by
  unfold missingMember at hrun
  split at hrun
  · exact absurd hrun (reportMissing_ne L)
  · cases hdefault : f.default with
    | some v =>
      simp only [hdefault, Run.bind_eq_ok, pure_eq_ok] at hrun
      obtain ⟨_, _, -, hm, -⟩ := hrun
      exact hm
    | none =>
      simp only [hdefault, pure_eq_ok] at hrun
      exact hrun.1

/-- What is missing stays missing. -/
theorem missingLoop_none
    (L : DocLaws env F r) {fuel off save : Nat} {d : StructDef} {seen : List Nat} {fs : List Field}
    {i : Nat} {m : Option Error} {b b' : Build σ}
    (hrun : missingLoop r fuel d off save seen fs i m b = .ok none b') :
    m = none := by
  induction fs generalizing i m b with
  | nil =>
    rw [missingLoop, pure_eq_ok] at hrun
    exact hrun.1
  | cons f fs ih =>
    rw [missingLoop] at hrun
    split at hrun
    · exact ih hrun
    · obtain ⟨m₁, b₁, hmember, hrun⟩ := Run.bind_eq_ok.1 hrun
      obtain rfl := ih hrun
      exact missingMember_none L hmember

theorem missingMember_returns
    (fuel off save i : Nat) (d : StructDef) {f : Field} (h : f.required = false) (b : Build σ) :
    ∃ b', missingMember r fuel d off save i f none b = .ok none b' := by
  unfold missingMember
  rw [if_neg (by rw [h]; exact Bool.false_ne_true)]
  cases f.default with
  | none => exact ⟨b, rfl⟩
  | some v => exact ⟨{ b with out := Val.setItem i b.out (f.defaulted v) }, rfl⟩

theorem missingLoop_ends
    (L : DocLaws env F r) {fuel off save : Nat} {d : StructDef} {seen : List Nat} {fs : List Field}
    {i : Nat} (hfs : d.fields.drop i = fs) {m : Option Error} {b b' : Build σ} (hb : Filled d b.out)
    (hrun : missingLoop r fuel d off save seen fs i m b = .ok none b') :
    m = none ∧ b'.reader = b.reader ∧ Filled d b'.out ∧
      (∀ j, j < i ∨ j ∈ seen → b'.out.item j = b.out.item j) ∧
      ∀ j f, i ≤ j → j ∉ seen → d.fields[j]? = some f →
        (f.skipDeserializing = true ∨ f.required = false) ∧
          b'.out.item j = f.restored (b.out.item j) := by
  induction fs generalizing i m b with
  | nil =>
    simp only [missingLoop, pure_eq_ok] at hrun
    obtain ⟨rfl, rfl⟩ := hrun
    refine ⟨rfl, rfl, hb, fun _ _ => rfl, fun j f hij _ hf => ?_⟩
    rw [List.getElem?_eq_none ((List.drop_eq_nil_iff.1 hfs).trans hij)] at hf
    cases hf
  | cons f fs ih =>
    have hf : d.fields[i]? = some f := by rw [← List.head?_drop, hfs]; rfl
    have hfs' : d.fields.drop (i + 1) = fs := by rw [← List.tail_drop, hfs]; rfl
    rw [missingLoop] at hrun
    split at hrun
    · rename_i hskip
      obtain ⟨hm, hreader, hfill, hframe, hall⟩ := ih hfs' hb hrun
      refine ⟨hm, hreader, hfill, fun j hj => hframe j (hj.imp_left Nat.lt_succ_of_lt),
        fun j g hij hj hg => ?_⟩
      rcases Nat.eq_or_lt_of_le hij with rfl | hlt
      · rw [hf] at hg
        cases hg
        have hflag := hskip.resolve_right hj
        refine ⟨.inl hflag, ?_⟩
        rw [hframe i (.inl (Nat.lt_succ_self i)), restored_of_skip hflag]
      · exact hall j g hlt hj hg
    · rename_i hskip
      rw [not_or] at hskip
      rw [Run.bind_eq_ok] at hrun
      obtain ⟨m₁, b₁, hmember, hrun⟩ := hrun
      have hflag : f.skipDeserializing = false := by simpa using hskip.1
      obtain rfl := missingLoop_none L hrun
      obtain ⟨hrequired, hm, hreader₁, hfill₁, hitem, hother⟩ :=
        missingMember_eq_ok L hflag hb hf hmember
      obtain ⟨-, hreader, hfill, hframe, hall⟩ := ih hfs' hfill₁ hrun
      refine ⟨hm, hreader.trans hreader₁, hfill, fun j hj => ?_, fun j g hij hj hg => ?_⟩
      · have hne : j ≠ i := by
          rintro rfl
          exact hj.elim (Nat.lt_irrefl _) hskip.2
        rw [hframe j (hj.imp_left Nat.lt_succ_of_lt), hother j hne]
      · rcases Nat.eq_or_lt_of_le hij with rfl | hlt
        · rw [hf] at hg
          cases hg
          exact ⟨.inr hrequired, (hframe i (.inl (Nat.lt_succ_self i))).trans hitem⟩
        · obtain ⟨hmay, hrestored⟩ := hall j g hlt hj hg
          exact ⟨hmay, by rw [hrestored, hother j (by omega)]⟩

theorem missingLoop_returns
    (fuel off save : Nat) {d : StructDef} {seen : List Nat} {fs : List Field} {i : Nat}
    (hfs : d.fields.drop i = fs)
    (h : ∀ j f, i ≤ j → j ∉ seen → d.fields[j]? = some f → f.skipDeserializing = true ∨
      f.required = false) (b : Build σ) :
    ∃ b', missingLoop r fuel d off save seen fs i none b = .ok none b' := by
  induction fs generalizing i b with
  | nil => exact ⟨b, rfl⟩
  | cons f fs ih =>
    have hf : d.fields[i]? = some f := by rw [← List.head?_drop, hfs]; rfl
    have hfs' : d.fields.drop (i + 1) = fs := by rw [← List.tail_drop, hfs]; rfl
    have hrest := fun b => ih hfs' (fun j g hij => h j g (Nat.le_of_succ_le hij)) b
    rw [missingLoop]
    split
    · exact hrest b
    · rename_i hskip
      rw [not_or] at hskip
      obtain ⟨b₁, hmember⟩ := missingMember_returns (r := r) fuel off save i d
        ((h i f le_rfl hskip.2 hf).resolve_left hskip.1) b
      obtain ⟨b', hb'⟩ := hrest b₁
      exact ⟨b', by rw [Run.bind_of_ok hmember, hb']⟩

/-! ### Objects -/

/-- What comes back of member `i`: what is read of it, or what stands there without an entry. -/
def MemberBack (env : Env) (d : StructDef) (old : Val) (vs : List Val) (P : Nat → Prop)
    (is : List Nat) : Prop :=
  ∀ i f v, d.fields[i]? = some f → vs[i]? = some v →
    if i ∈ is then P i
    else (f.skipDeserializing = true ∨ f.required = false) ∧
      Like env f.ty v (f.restored (old.item i))

theorem like_struct_iff {vs : List Val} {w : Val} (hvs : vs.length = (env.structs id).fields.length)
    (hw : Filled (env.structs id) w) : Like env (.struct id) (.seq vs) w ↔
      ∀ (i : Nat) f v, (env.structs id).fields[i]? = some f → vs[i]? = some v →
        Like env f.ty v (w.item i) := by
  obtain ⟨ws, rfl, hws⟩ := hw
  have hlen : vs.length = ((env.structs id).fields.map Field.ty).length :=
    hvs.trans (List.length_map _).symm
  have heach : Like env (.struct id) (.seq vs) (.seq ws) ↔
    LikeEach env ((env.structs id).fields.map Field.ty) vs ws := by
    constructor
    · rintro ⟨ws', heq, h⟩
      cases heq
      exact h
    · exact fun h => ⟨ws, rfl, h⟩
  have hitem : ∀ {i w}, ws[i]? = some w → (Val.seq ws).item i = w := by
    intro i w hw
    show ws.getD i .null = w
    rw [List.getD_eq_getElem?_getD, hw]
    rfl
  rw [heach, likeEach_iff hlen, and_iff_right (hws.trans hvs.symm)]
  constructor
  · intro h i f v hf hv
    have hi : i < ws.length := hws ▸ (List.getElem?_eq_some_iff.1 hf).1
    rw [hitem (List.getElem?_eq_getElem hi)]
    exact h i f.ty v _ (by rw [List.getElem?_map, hf]; rfl) hv (List.getElem?_eq_getElem hi)
  · intro h i t v w ht hv hw
    rw [List.getElem?_map, Option.map_eq_some_iff] at ht
    obtain ⟨f, hf, rfl⟩ := ht
    rw [← hitem hw]
    exact h i f v hf hv

/-- An entry, and what is read of it. -/
def MemberReads (L : DocLaws env F r) (dec : Nat → FieldMeta → Ty → D σ Unit) (d : StructDef)
    (ignoreKey : Bytes) (vs : List Val) (old : Val) (P : Nat → Prop) (x : DocKey × Doc) :
      Option Nat → Prop
  | none => Skips F d ignoreKey x.1
  | some i =>
    ∃ f v, d.fields[i]? = some f ∧ vs[i]? = some v ∧ f.skipDeserializing = false ∧
      x.1 = keyOf F.traits d f ∧
    Reads L (fun n => dec n f.info f.ty) x.2 (old.item i) (P i) (Like env f.ty v)

theorem MemberReads.lands {x : DocKey × Doc} {o : Option Nat} {d : StructDef}
    (h : MemberReads L dec d ignoreKey vs old P x o) :
    ∃ n₀, MemberLands L n₀ dec d ignoreKey vs old P x o := by
  cases o with
  | none => exact ⟨0, h⟩
  | some i =>
    obtain ⟨f, v, hf, hv, hflag, hk, n₀, h⟩ := h
    exact ⟨n₀, f, v, hf, hv, hflag, hk, h⟩

theorem MemberLands.mono
    {n₁ : Nat} (hle : n₀ ≤ n₁) {x : DocKey × Doc} {o : Option Nat} {d : StructDef}
    (h : MemberLands L n₀ dec d ignoreKey vs old P x o) :
    MemberLands L n₁ dec d ignoreKey vs old P x o := by
  cases o with
  | none => exact h
  | some i =>
    obtain ⟨f, v, hf, hv, hflag, hk, h⟩ := h
    exact ⟨f, v, hf, hv, hflag, hk, fun s u hat => (h s u hat).mono hle⟩

/-- The members of an object are read from its entries, in whatever order these stand. -/
theorem reads_decodeMembers (ha : Vetted env F) {doc : Doc} {xs : List (DocKey × Doc)}
    {os : List (Option Nat)} (hvs : vs.length = (env.structs id).fields.length)
    (hold : Filled (env.structs id) old)
    (hmap : ∀ s u, L.At doc s u → ∃ c t, r.expectMap s = .ok c t ∧ L.InMap c xs t u)
    (h : List.Forall₂ (MemberReads L dec (env.structs id) ignoreKey vs old P) xs os)
    (hnodup : os.reduceOption.Nodup) :
    Reads L (fun n => decodeMembers r n (dec n) (env.structs id) ignoreKey) doc old
      (MemberBack env (env.structs id) old vs P os.reduceOption)
      (Like env (.struct id) (.seq vs)) := by
  -- one bound for all entries
  obtain ⟨hlen, h⟩ := List.forall₂_iff_zip.1 h
  obtain ⟨n₀, h⟩ := common_bound (R := fun n (x : (DocKey × Doc) × Option Nat) =>
    MemberLands L n dec (env.structs id) ignoreKey vs old P x.1 x.2) (fun hle h => h.mono hle) _
      fun x hx => (h hx).lands
  have h := List.forall₂_iff_zip.2 ⟨hlen, fun hx => h _ hx⟩
  refine ⟨max n₀ (xs.length + 1), fun s u hat => ?_⟩
  obtain ⟨off, s₁, hoff, hs₁⟩ := L.offset s
  obtain ⟨c, s₂, hexpect, hin⟩ := hmap s₁ u (L.at_same hs₁ hat)
  have hsave : (getReader : D σ σ) { reader := s₁, out := old } =
    .ok s₁ { reader := s₁, out := old } := rfl
  have hdrop : (env.structs id).fields.drop 0 = (env.structs id).fields := List.drop_zero
  constructor
  · intro n b' hrun
    unfold decodeMembers at hrun
    rw [call_bind hoff, Run.bind_of_ok hsave, call_bind hexpect] at hrun
    obtain ⟨seen, b₁, hloop, hrun⟩ := Run.bind_eq_ok.1 hrun
    obtain ⟨hend, hfill, hmem, hframe, hall⟩ :=
      structLoop_ends ha h (b := { reader := s₂, out := old }) hnodup
      (fun _ _ => List.not_mem_nil) (fun _ _ => rfl) hold hin hloop
    obtain ⟨missing, b₂, hmissing, hrun⟩ := Run.bind_eq_ok.1 hrun
    cases missing with
    | some e => exact absurd hrun fail_ne_ok
    | none =>
      rw [pure_eq_ok] at hrun
      obtain rfl := hrun.2
      obtain ⟨-, hreader, hfill', hframe', hrest⟩ := missingLoop_ends L hdrop hfill hmissing
      have hseen : ∀ i, i ∈ seen ↔ i ∈ os.reduceOption :=
        fun i => (hmem i).trans (or_iff_right List.not_mem_nil)
      refine ⟨hreader ▸ hend, ?_⟩
      rw [like_struct_iff hvs hfill']
      refine forall₂_congr fun i f => forall_congr' fun v => forall₂_congr fun hf hv => ?_
      split
      · rename_i hi
        rw [hframe' i (.inr ((hseen i).2 hi))]
        exact hall i hi f v hf hv
      · rename_i hi
        obtain ⟨hmay, hitem⟩ := hrest i f (Nat.zero_le i) (fun h => hi ((hseen i).1 h)) hf
        rw [hitem, hframe i hi, and_iff_right hmay]
  · intro hback n hn
    have hP : ∀ i ∈ os.reduceOption, P i := by
      intro i hi
      obtain ⟨x, -, hx⟩ := forall₂_mem h.flip (List.reduceOption_mem_iff.1 hi)
      obtain ⟨f, v, hf, hv, -⟩ := hx
      have hback := hback i f v hf hv
      rwa [if_pos hi] at hback
    obtain ⟨seen, b₁, hloop⟩ := structLoop_returns ha (le_of_max_le_left hn) h hP
      (Nat.lt_of_succ_le (le_of_max_le_right hn)) hnodup (fun _ _ => List.not_mem_nil)
        (fun _ _ => rfl)
      (b := { reader := s₂, out := old }) hin
    obtain ⟨-, -, hmem, -⟩ :=
      structLoop_ends ha h hnodup (fun _ _ => List.not_mem_nil) (fun _ _ => rfl) hold hin hloop
    have hmay : ∀ j f, 0 ≤ j → j ∉ seen → (env.structs id).fields[j]? = some f →
        f.skipDeserializing = true ∨ f.required = false := by
      intro j f _ hj hf
      have hlt : j < vs.length := hvs ▸ (List.getElem?_eq_some_iff.1 hf).1
      have hback := hback j f _ hf (List.getElem?_eq_getElem hlt)
      rw [if_neg fun h => hj ((hmem j).2 (.inr h))] at hback
      exact hback.1
    obtain ⟨b₂, hmissing⟩ := missingLoop_returns (r := r) n off (r.save s₁) hdrop hmay b₁
    refine ⟨b₂, ?_⟩
    unfold decodeMembers
    rw [call_bind hoff, Run.bind_of_ok hsave, call_bind hexpect, Run.bind_of_ok hloop,
      Run.bind_of_ok hmissing]
    rfl

end

end VCodec
