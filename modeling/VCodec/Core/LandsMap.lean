import VCodec.Core.Decimal
import VCodec.Core.Lands

/-!
# Reading the document of a map

The entries arrive in the format's order, and each is put where its key belongs. In a map with
unique keys that order does not show; a range of pairs shows it.
-/

namespace VCodec

open D

variable {σ S M : Type} {env : Env} {F : Format} {r : Reader σ S M} {L : DocLaws env F r}

/-! ### Keys -/

theorem parseIntegralKey_decimalInt
    {k : IntTy} {i : Int} (hi : k.Holds i) (off : Nat) (b : Build σ) :
    parseIntegralKey env r k (decimalInt i) off b = .ok i b := by
  unfold parseIntegralKey
  rw [fromChars_decimalInt hi.1 hi.2]
  rfl

theorem decodeKey_text {f : FieldMeta} {m : Ty} {off : Nat} {k : IntTy} {i : Int}
    (hi : k.Holds i) {dk : DocKey} {s u : σ} {old : Val} (hat : L.AtKey dk s u)
    (hshown : F.shown dk = .text (decimalInt i)) :
    ∃ w, L.Same w u ∧
      decodeKey env r f m off (.int k) { reader := s, out := old } =
        .ok (.int i) { reader := w, out := old } := by
  obtain ⟨s₁, hkind, hs₁⟩ := L.key_kind hat hshown
  obtain ⟨ref, w, hw, hsame, htext, -⟩ := L.key_text (L.atKey_same hs₁ hat) hshown
  refine ⟨w, hsame, ?_⟩
  rw [decodeKey, call_bind hkind, if_pos rfl, call_bind hw, htext,
    Run.bind_of_ok (parseIntegralKey_decimalInt hi off _)]
  rfl

theorem decodeKey_uint {f : FieldMeta} {m : Ty} {off : Nat} {k : IntTy} {n : Nat}
    (hn : k.Holds n) {dk : DocKey} {s u : σ} {old : Val} (hat : L.AtKey dk s u)
    (hshown : F.shown dk = .int n) :
    ∃ w, L.Same w u ∧
      decodeKey env r f m off (.int k) { reader := s, out := old } =
        .ok (.int n) { reader := w, out := old } := by
  obtain ⟨⟨s₁, hkind, hs₁⟩, -⟩ := L.key_uint hat hshown
  obtain ⟨-, w, hw, hsame⟩ := L.key_uint (L.atKey_same hs₁ hat) hshown
  refine ⟨w, hsame, ?_⟩
  rw [decodeKey, call_bind hkind, if_neg (by decide), if_pos rfl, call_bind hw,
    if_neg (not_lt.2 hn.2)]
  rfl

theorem decodeKey_sint {f : FieldMeta} {m : Ty} {off : Nat} {k : IntTy} {n : Nat}
    (hn : k.Holds (Int.negSucc n))
    {dk : DocKey} {s u : σ} {old : Val} (hat : L.AtKey dk s u)
    (hshown : F.shown dk = .int (Int.negSucc n)) :
    ∃ w, L.Same w u ∧ decodeKey env r f m off (.int k) { reader := s, out := old } =
      .ok (.int (Int.negSucc n)) { reader := w, out := old } := by
  obtain ⟨⟨s₁, hkind, hs₁⟩, -⟩ := L.key_sint hat hshown
  obtain ⟨-, w, hw, hsame⟩ := L.key_sint (L.atKey_same hs₁ hat) hshown
  have hsigned : k.signed = true := by
    by_contra hunsigned
    have hmin := hn.1
    unfold IntTy.min at hmin
    rw [if_neg hunsigned] at hmin
    exact absurd hmin (not_le.2 (Int.negSucc_lt_zero n))
  refine ⟨w, hsame, ?_⟩
  rw [decodeKey, call_bind hkind, if_neg (by decide), if_neg (by decide), call_bind hw,
    if_neg (not_or.2 ⟨not_not.2 hsigned, not_or.2 ⟨not_lt.2 hn.2, not_lt.2 hn.1⟩⟩)]
  rfl

/-- A view of a key needs the input to alias. -/
def ViewKey (F : Format) (kt : KeyTy) (dk : DocKey) : Prop :=
  kt = .text true → F.aliasesKey dk = true

variable (env) in
/-- A key is read back from what is written for it. -/
theorem decodeKey_at (f : FieldMeta) (m : Ty) (off : Nat) (old : Val) {kt : KeyTy} {k : Key}
    {dk : DocKey} (hk : kt.Holds k) (hdk : lowerKey kt k = some dk) {s u : σ}
    (hat : L.AtKey dk s u) :
    ∃ w, L.Same w u ∧ ∀ a b', decodeKey env r f m off kt { reader := s, out := old } = .ok a b' ↔
      ViewKey F kt dk ∧ a = k ∧ b' = { reader := w, out := old } := by
  cases kt with
  | text view =>
    cases k with
    | int i => exact hk.elim
    | text x =>
      cases hdk
      obtain ⟨ref, w, hw, hsame, htext, hborrowed⟩ := L.key_text hat (L.shown_text x)
      refine ⟨w, hsame, fun a b' => ?_⟩
      rw [decodeKey, call_bind hw, Run.ite_apply]
      simp only [htext, hborrowed, ViewKey, KeyTy.text.injEq]
      split
      · rename_i hview
        exact iff_of_false fail_ne_ok fun h => hview.2 (h.1 hview.1)
      · rename_i hview
        rw [pure_eq_ok]
        constructor
        · rintro ⟨rfl, rfl⟩
          refine ⟨fun hv => ?_, rfl, rfl⟩
          by_contra hne
          exact hview ⟨hv, hne⟩
        · rintro ⟨-, rfl, rfl⟩
          exact ⟨rfl, rfl⟩
  | int ty =>
    cases k with
    | text x => exact hk.elim
    | int i =>
      have hi : ty.Holds i := hk
      have hread : ∃ w, L.Same w u ∧ decodeKey env r f m off (.int ty) { reader := s, out := old } =
          .ok (.int i) { reader := w, out := old } := by
        have hsigned : ∀ {dk}, L.AtKey dk s u → F.shown dk = .int i →
            ∃ w, L.Same w u ∧ decodeKey env r f m off (.int ty) { reader := s, out := old } =
              .ok (.int i) { reader := w, out := old } := by
          intro dk hat hshown
          cases i with
          | ofNat n => exact decodeKey_uint hi hat hshown
          | negSucc n => exact decodeKey_sint hi hat hshown
        unfold lowerKey at hdk
        cases hs : ty.signed with
        | true =>
          simp only [hs, if_true, Option.some.injEq] at hdk
          subst hdk
          rcases L.shown_sint i with h | h
          · exact hsigned hat h
          · exact decodeKey_text hi hat h
        | false =>
          simp only [hs, Bool.false_eq_true, if_false, Option.some.injEq] at hdk
          subst hdk
          have hnonneg : 0 ≤ i := by
            have hmin := hi.1
            unfold IntTy.min at hmin
            rwa [hs, if_neg Bool.false_ne_true] at hmin
          obtain ⟨n, rfl⟩ := Int.eq_ofNat_of_zero_le hnonneg
          rcases L.shown_uint n with h | h
          · exact decodeKey_uint hi hat h
          · exact decodeKey_text hi hat h
      obtain ⟨w, hsame, hrun⟩ := hread
      refine ⟨w, hsame, fun a b' => ?_⟩
      rw [hrun]
      constructor
      · intro h
        cases h
        exact ⟨fun h => KeyTy.noConfusion h, rfl, rfl⟩
      · rintro ⟨-, rfl, rfl⟩
        rfl

/-! ### Entries -/

/-- An entry lies ahead as its key and its value, and the value is read behind the key. -/
def EntryLands (L : DocLaws env F r) (n₀ : Nat) (dec : Nat → D σ Unit) (kt : KeyTy) (t : Ty)
    (P : Val → Prop) (e : Key × Val) (x : DocKey × Doc) : Prop :=
  kt.Holds e.1 ∧ lowerKey kt e.1 = some x.1 ∧
    ∀ s u, L.At x.2 s u → Lands L n₀ dec { reader := s, out := t.zero env } u (P e.2)
      (Like env t e.2)

/-- What is read of an entry has its key, and is like it if it is to come back. -/
def EntryLike (env : Env) (t : Ty) (P : Val → Prop) (e w : Key × Val) : Prop :=
  w.1 = e.1 ∧ (Like env t e.2 w.2 ↔ P e.2)

theorem insertInto_perm (kind : MapKind) (k : Key) (v : Val) (es : List (Key × Val)) :
    (insertInto kind k v es).Perm (es ++ [(k, v)]) := by
  cases kind with
  | ordered =>
    have happend := List.takeWhile_append_dropWhile (p := fun e : Key × Val => e.1.lt k) (l := es)
    calc (es.takeWhile (·.1.lt k) ++ (k, v) :: es.dropWhile (·.1.lt k)).Perm
          ((k, v) :: (es.takeWhile (·.1.lt k) ++ es.dropWhile (·.1.lt k))) := List.perm_middle
      _ = (k, v) :: es := by rw [happend]
      List.Perm _ (es ++ [(k, v)]) := (List.perm_append_singleton _ _).symm
  | unordered => exact .refl _
  | pairs => exact .refl _

/-- The map that the entries are put into one by one. -/
def insertAll (kind : MapKind) (ws acc : List (Key × Val)) : List (Key × Val) :=
  ws.foldl (fun acc w => insertInto kind w.1 w.2 acc) acc

theorem insertAll_perm (kind : MapKind) (ws acc : List (Key × Val)) :
    (insertAll kind ws acc).Perm (acc ++ ws) := by
  induction ws generalizing acc with
  | nil => rw [List.append_nil]; exact .refl acc
  | cons w ws ih =>
    have hcons : acc ++ w :: ws = acc ++ [w] ++ ws := by
      rw [List.append_assoc, List.singleton_append]
    rw [hcons]
    exact (ih _).trans ((insertInto_perm kind w.1 w.2 acc).append_right ws)

theorem insertAll_pairs (ws acc : List (Key × Val)) : insertAll .pairs ws acc = acc ++ ws := by
  induction ws generalizing acc with
  | nil => exact (List.append_nil acc).symm
  | cons w ws ih =>
    show insertAll .pairs ws (acc ++ [w]) = _
    rw [ih, List.append_assoc, List.singleton_append]

/-- No key is met twice. -/
abbrev Fresh (kind : MapKind) (acc es : List (Key × Val)) : Prop :=
  kind ≠ .pairs → (acc.map Prod.fst ++ es.map Prod.fst).Nodup

theorem repeated_eq_none {kind : MapKind} {acc es : List (Key × Val)}
    {e : Key × Val} (h : Fresh kind acc (e :: es)) :
    repeated kind e.1 acc = none := by
  unfold repeated
  split
  · rfl
  · rename_i hkind
    have hnodup := h hkind
    rw [List.map_cons, List.nodup_append] at hnodup
    refine List.findIdx?_eq_none_iff.2 fun a ha => ?_
    rw [decide_eq_false_iff_not]
    exact hnodup.2.2 _ (List.mem_map_of_mem ha) _ (.head _)

theorem Fresh.insert {kind : MapKind} {acc es : List (Key × Val)}
    {e : Key × Val} (v : Val) (h : Fresh kind acc (e :: es)) :
    Fresh kind (insertInto kind e.1 v acc) es := by
  intro hkind
  have hperm : ((insertInto kind e.1 v acc).map Prod.fst).Perm (acc.map Prod.fst ++ [e.1]) := by
    have hmap := (insertInto_perm kind e.1 v acc).map Prod.fst
    rwa [List.map_append] at hmap
  refine (hperm.append_right _).nodup_iff.2 ?_
  rw [List.append_assoc, List.singleton_append]
  exact h hkind

section

variable {f : FieldMeta} {kind : MapKind} {kt : KeyTy} {t : Ty} {P : Val → Prop} {n₀ : Nat}
    {dec : Nat → D σ Unit}

/-- The value of an entry with a new key is inserted. -/
theorem mapEntry_new (L : DocLaws env F r) {n : Nat} (off : Nat) {k : Key} {es : List (Key × Val)}
    (hnew : repeated kind k es = none) {b b' : Build σ} :
    mapEntry env r (dec n) kind t off k es b = .ok () b' ↔
      ∃ b₁, dec n { b with out := t.zero env } = .ok () b₁ ∧
        b' = { b₁ with out := .map (insertInto kind k b₁.out es) } := by
  unfold mapEntry
  rw [hnew]
  simp only [Run.bind_eq_ok, onLocal_eq_ok, L.inStep_eq_ok, setOut_eq_ok]
  constructor
  · rintro ⟨w, _, ⟨b₁, hdec, rfl, rfl⟩, rfl⟩
    exact ⟨b₁, hdec, rfl⟩
  · rintro ⟨b₁, hdec, rfl⟩
    exact ⟨_, _, ⟨b₁, hdec, rfl, rfl⟩, rfl⟩

theorem mapLoop_ends {n : Nat} {es : List (Key × Val)} {ds : List (DocKey × Doc)}
    (h : List.Forall₂ (EntryLands L n₀ dec kt t P) es ds)
    {fuel : Nat} {c : M} {b b' : Build σ} {u : σ} (acc : List (Key × Val))
    (hfresh : Fresh kind acc es) (hin : L.InMap c ds b.reader u) (hout : b.out = .map acc)
    (hrun : mapLoop env r (dec n) f kind kt t fuel c b = .ok () b') :
    L.Same b'.reader u ∧ (∀ x ∈ ds, ViewKey F kt x.1) ∧
      ∃ ws, List.Forall₂ (EntryLike env t P) es ws ∧ b'.out = .map (insertAll kind ws acc) := by
  induction h generalizing fuel c b acc with
  | nil =>
    cases fuel with
    | zero => exact absurd hrun throw_ne_ok
    | succ fuel =>
      obtain ⟨c', s', hnext, hsame⟩ := L.key_done hin
      rw [mapLoop, call_bind hnext] at hrun
      simp only [Bool.false_eq_true, if_false, pure_eq_ok] at hrun
      obtain rfl := hrun.2
      exact ⟨hsame, List.forall_mem_nil _, [], .nil, hout⟩
  | @cons e x es ds he _ ih =>
    cases fuel with
    | zero => exact absurd hrun throw_ne_ok
    | succ fuel =>
      obtain ⟨hk, hdk, hv⟩ := he
      obtain ⟨k, d⟩ := x
      obtain ⟨c', s₁, t₁, u₁, hnext, hkey, hat, hrest⟩ := L.key_more hin
      obtain ⟨off, s₂, hoff, hs₂⟩ := L.offset s₁
      obtain ⟨w, hw, hdecode⟩ := decodeKey_at env f (.map kind kt t) off b.out hk hdk
        (L.atKey_same hs₂ hkey)
      rw [mapLoop, call_bind hnext] at hrun
      simp only [if_true] at hrun
      rw [call_bind hoff, Run.bind_eq_ok] at hrun
      obtain ⟨key, b₁, hkeyrun, hrun⟩ := hrun
      obtain ⟨hview, rfl, rfl⟩ := (hdecode key b₁).1 hkeyrun
      simp only [Run.bind_eq_ok, getOut_eq_ok] at hrun
      obtain ⟨_, _, ⟨rfl, rfl⟩, _, b₂, hentry, hrun⟩ := hrun
      have hentries : b.out.entries = acc := by rw [hout]; rfl
      simp only [hentries] at hentry
      obtain ⟨b₃, hdec, rfl⟩ := (mapEntry_new L _ (repeated_eq_none hfresh)).1 hentry
      obtain ⟨hsame, hlike⟩ := (hv _ _ (L.at_same hw hat)).ends n b₃ hdec
      obtain ⟨hend, hviews, ws, hws, hfinal⟩ := ih
        (b := { b₃ with out := .map (insertInto kind e.1 b₃.out acc) }) _ (hfresh.insert b₃.out)
          (L.inMap_same hsame hrest)
        rfl hrun
      exact ⟨hend, List.forall_mem_cons.2 ⟨hview, hviews⟩, (e.1, b₃.out) :: ws,
        .cons ⟨rfl, hlike⟩ hws, hfinal⟩

theorem mapLoop_returns {n : Nat} {es : List (Key × Val)} {ds : List (DocKey × Doc)} (hn : n₀ ≤ n)
    (h : List.Forall₂ (EntryLands L n₀ dec kt t P) es ds)
    (hP : ∀ e ∈ es, P e.2) (hviews : ∀ x ∈ ds, ViewKey F kt x.1) {fuel : Nat} {c : M} {b : Build σ}
    {u : σ} {acc : List (Key × Val)}
    (hfuel : ds.length < fuel) (hfresh : Fresh kind acc es) (hin : L.InMap c ds b.reader u)
    (hout : b.out = .map acc) :
    ∃ b', mapLoop env r (dec n) f kind kt t fuel c b = .ok () b' := by
  induction h generalizing fuel c b acc with
  | nil =>
    obtain ⟨fuel, rfl⟩ : ∃ j, fuel = j + 1 := ⟨fuel - 1, by omega⟩
    obtain ⟨c', s', hnext, -⟩ := L.key_done hin
    refine ⟨{ b with reader := s' }, ?_⟩
    rw [mapLoop, call_bind hnext]
    rfl
  | @cons e x es ds he _ ih =>
    obtain ⟨fuel, rfl⟩ : ∃ j, fuel = j + 1 := ⟨fuel - 1, by omega⟩
    obtain ⟨hk, hdk, hv⟩ := he
    obtain ⟨k, d⟩ := x
    obtain ⟨c', s₁, t₁, u₁, hnext, hkey, hat, hrest⟩ := L.key_more hin
    obtain ⟨off, s₂, hoff, hs₂⟩ := L.offset s₁
    obtain ⟨w, hw, hdecode⟩ := decodeKey_at env f (.map kind kt t) off b.out hk hdk
      (L.atKey_same hs₂ hkey)
    have hkeyrun := (hdecode e.1 _).2 ⟨hviews _ (.head _), rfl, rfl⟩
    have hlands := hv _ _ (L.at_same hw hat)
    obtain ⟨b₃, hdec⟩ := hlands.returns (hP e (.head _)) n hn
    obtain ⟨hsame, -⟩ := hlands.ends n b₃ hdec
    have hentry :=
      (mapEntry_new L off (b := { reader := w, out := b.out }) (repeated_eq_none hfresh)).2
      ⟨b₃, hdec, rfl⟩
    obtain ⟨b', hb'⟩ := ih (fun e he => hP e (.tail _ he)) (fun x hx => hviews x (.tail _ hx))
      (Nat.lt_of_succ_lt_succ hfuel) (hfresh.insert b₃.out) (L.inMap_same hsame hrest)
      (b := { b₃ with out := .map (insertInto kind e.1 b₃.out acc) }) rfl
    refine ⟨b', ?_⟩
    have hentries : b.out.entries = acc := by rw [hout]; rfl
    rw [mapLoop, call_bind hnext]
    simp only [if_true]
    rw [call_bind hoff, Run.bind_of_ok hkeyrun]
    show (mapEntry env r (dec n) kind t off e.1 b.out.entries >>= fun _ => _) _ = _
    rw [hentries, Run.bind_of_ok hentry]
    exact hb'

theorem forall₂_perm {α β : Type} {R : α → β → Prop} {as : List α} {bs bs' : List β}
    (h : List.Forall₂ R as bs) (hperm : bs'.Perm bs) :
    ∃ as', List.Forall₂ R as' bs' ∧ as'.Perm as := by
  obtain ⟨as', h', hperm'⟩ := List.perm_comp_forall₂ hperm h.flip
  exact ⟨as', h'.flip, hperm'⟩

theorem forall₂_mem {α β : Type} {R : α → β → Prop} {as : List α} {bs : List β}
    (h : List.Forall₂ R as bs) {a : α} (ha : a ∈ as) : ∃ b ∈ bs, R a b := by
  induction h with
  | nil => cases ha
  | @cons a' b as bs hab _ ih =>
    rcases List.mem_cons.1 ha with rfl | ha
    · exact ⟨b, .head _, hab⟩
    · obtain ⟨b', hb', h⟩ := ih ha
      exact ⟨b', .tail _ hb', h⟩

theorem forall₂_fst {α β γ : Type} {R : α → β → Prop} {g : α → γ} {g' : β → γ}
    (hR : ∀ {a b}, R a b → g' b = g a) {as : List α} {bs : List β} (h : List.Forall₂ R as bs) :
    bs.map g' = as.map g := by
  induction h with
  | nil => rfl
  | cons h _ ih => rw [List.map_cons, List.map_cons, hR h, ih]

theorem entryLike_all {es ws : List (Key × Val)} (h : List.Forall₂ (EntryLike env t P) es ws) :
    List.Forall₂ (fun e w => w.1 = e.1 ∧ Like env t e.2 w.2) es ws ↔ ∀ e ∈ es, P e.2 := by
  induction h with
  | nil => exact iff_of_true .nil (List.forall_mem_nil _)
  | cons h _ ih => rw [List.forall₂_cons, ih, List.forall_mem_cons, h.2, and_iff_right h.1]

/-- The entries of a map with unique keys come back in any order. -/
theorem like_unique {es es₂ ws out : List (Key × Val)}
    (hkind : kind ≠ .pairs) (hnodup : (es.map Prod.fst).Nodup)
    (hperm : es₂.Perm es) (h : List.Forall₂ (EntryLike env t P) es₂ ws) (hout : out.Perm ws) :
    Like env (.map kind kt t) (.map es) (.map out) ↔ ∀ e ∈ es, P e.2 := by
  have hlike : Like env (.map kind kt t) (.map es) (.map out) ↔
      ∃ es₁, List.Forall₂ (fun e w => w.1 = e.1 ∧ Like env t e.2 w.2) es es₁ ∧ es₁.Perm ws := by
    rw [Like]
    constructor
    · rintro ⟨es₁, es', hlike, heq, hes'⟩
      cases heq
      rw [if_neg hkind] at hes'
      exact ⟨es₁, likeEntries_iff.1 hlike, hes'.trans hout⟩
    · rintro ⟨es₁, hlike, hes₁⟩
      refine ⟨es₁, out, likeEntries_iff.2 hlike, rfl, ?_⟩
      rw [if_neg hkind]
      exact hes₁.trans hout.symm
  have hkeys : (ws.map Prod.fst).Nodup := by
    rw [forall₂_fst (fun h => h.1) h]
    exact (hperm.map Prod.fst).nodup_iff.2 hnodup
  rw [hlike]
  constructor
  · rintro ⟨es₁, hlike, hes₁⟩ e he
    -- the entry that has come for this one is the only one with its key
    obtain ⟨w, hw, hkey, hew⟩ := forall₂_mem hlike he
    obtain ⟨w', hw', hkey', hP⟩ := forall₂_mem h (hperm.mem_iff.2 he)
    obtain rfl : w = w' :=
      List.inj_on_of_nodup_map hkeys (hes₁.mem_iff.1 hw) hw' (hkey.trans hkey'.symm)
    exact hP.1 hew
  · intro hP
    exact List.perm_comp_forall₂ hperm.symm
      ((entryLike_all h).2 fun e he => hP e (hperm.mem_iff.1 he))

/-- The entries of a range of pairs come back in the order in which they are written. -/
theorem like_pairs {es es₂ ws : List (Key × Val)} {ds ds₂ : List (DocKey × Doc)}
    (harrange : ds₂.map Prod.fst = ds.map Prod.fst → ds₂ = ds) (hsame : ds₂ = ds → es₂ = es)
    (hkeys : List.Forall₂ (fun e x => lowerKey kt e.1 = some x.1) es ds)
    (hkeys₂ : List.Forall₂ (fun e x => lowerKey kt e.1 = some x.1) es₂ ds₂)
    (h : List.Forall₂ (EntryLike env t P) es₂ ws) :
    Like env (.map .pairs kt t) (.map es) (.map ws) ↔ ds₂ = ds ∧ ∀ e ∈ es, P e.2 := by
  have hlike : Like env (.map .pairs kt t) (.map es) (.map ws) ↔
      List.Forall₂ (fun e w => w.1 = e.1 ∧ Like env t e.2 w.2) es ws := by
    rw [Like]
    constructor
    · rintro ⟨es₁, es', hlike, heq, hes'⟩
      cases heq
      rw [if_pos rfl] at hes'
      exact hes' ▸ likeEntries_iff.1 hlike
    · intro hlike
      refine ⟨ws, ws, likeEntries_iff.2 hlike, rfl, ?_⟩
      rw [if_pos rfl]
  rw [hlike]
  constructor
  · intro hlike
    have hds : ds₂ = ds := by
      refine harrange (List.map_injective_iff.2 (Option.some_injective _) ?_)
      rw [List.map_map, List.map_map]
      have hfst : es.map Prod.fst = es₂.map Prod.fst :=
        (forall₂_fst (fun h => h.1) hlike).symm.trans (forall₂_fst (fun h => h.1) h)
      calc ds₂.map (some ∘ Prod.fst) = es₂.map (lowerKey kt ∘ Prod.fst) :=
        forall₂_fst (fun h => h.symm) hkeys₂
        _ = es.map (lowerKey kt ∘ Prod.fst) := by rw [← List.map_map, ← hfst, List.map_map]
        _ = ds.map (some ∘ Prod.fst) := (forall₂_fst (fun h => h.symm) hkeys).symm
    obtain rfl := hsame hds
    exact ⟨hds, (entryLike_all h).1 hlike⟩
  · rintro ⟨hds, hP⟩
    obtain rfl := hsame hds
    exact (entryLike_all h).2 hP

theorem reads_map {old : Val} {m : Option Nat} {es : List (Key × Val)} {ds : List (DocKey × Doc)}
    (h : List.Forall₂ (fun e x => kt.Holds e.1 ∧ lowerKey kt e.1 = some x.1 ∧
      Reads L dec x.2 (t.zero env) (P e.2) (Like env t e.2)) es ds)
    (hnodup : kind ≠ .pairs → (es.map Prod.fst).Nodup) :
    Reads L (fun n => decodeMap env r n (dec n) f kind kt t) (.map f m ds) old
      ((∀ x ∈ ds, ViewKey F kt x.1) ∧ (kind = .pairs → F.arrange ds = ds) ∧ ∀ e ∈ es, P e.2)
      (Like env (.map kind kt t) (.map es)) := by
  -- one bound for all entries
  obtain ⟨hlen, h⟩ := List.forall₂_iff_zip.1 h
  obtain ⟨n₀, h⟩ :=
    common_bound (R := fun n (x : (Key × Val) × (DocKey × Doc)) =>
    EntryLands L n dec kt t P x.1 x.2)
    (fun hle h => ⟨h.1, h.2.1, fun s u hat => (h.2.2 s u hat).mono hle⟩) _ fun x hx => by
      obtain ⟨hk, hdk, n, hn⟩ := h hx
      exact ⟨n, hk, hdk, hn⟩
  have h := List.forall₂_iff_zip.2 ⟨hlen, fun hx => h _ hx⟩
  -- the entries in the order in which they are written
  obtain ⟨es₂, h₂, hperm, hsame⟩ : ∃ es₂,
    List.Forall₂ (EntryLands L n₀ dec kt t P) es₂ (F.arrange ds) ∧ es₂.Perm es ∧
      (F.arrange ds = ds → es₂ = es) := by
    by_cases hds : F.arrange ds = ds
    · exact ⟨es, by rwa [hds], .refl es, fun _ => rfl⟩
    · obtain ⟨es₂, h₂, hperm⟩ := forall₂_perm h (L.arrange_perm ds)
      exact ⟨es₂, h₂, hperm, fun h => absurd h hds⟩
  have hfresh : Fresh kind [] es₂ := fun hkind => (hperm.map Prod.fst).nodup_iff.2 (hnodup hkind)
  refine ⟨max n₀ ((F.arrange ds).length + 1), fun s u hat => ?_⟩
  obtain ⟨c, s', hmap, hin⟩ := L.map hat
  have hbegin : ∀ n, decodeMap env r n (dec n) f kind kt t { reader := s, out := old } =
      mapLoop env r (dec n) f kind kt t n c { reader := s', out := .map [] } := by
    intro n
    unfold decodeMap
    rw [call_bind hmap]
    rfl
  constructor
  · intro n b' hrun
    rw [hbegin] at hrun
    obtain ⟨hend, hviews, ws, hws, hout⟩ := mapLoop_ends h₂ [] hfresh hin rfl hrun
    refine ⟨hend, ?_⟩
    rw [and_iff_right fun x hx => hviews x ((L.arrange_perm ds).mem_iff.2 hx), hout]
    by_cases hkind : kind = .pairs
    · subst hkind
      rw [insertAll_pairs, List.nil_append,
        like_pairs (L.arrange_keys ds) hsame (h.imp fun _ _ h => h.2.1)
        (h₂.imp fun _ _ h => h.2.1) hws]
      exact and_congr_left fun _ => (imp_iff_right rfl).symm
    · rw [like_unique hkind (hnodup hkind) hperm hws (insertAll_perm kind ws [])]
      exact (and_iff_right fun h => absurd h hkind).symm
  · rintro ⟨hviews, -, hP⟩ n hn
    rw [hbegin]
    exact mapLoop_returns (by omega) h₂ (fun e he => hP e (hperm.mem_iff.1 he))
      (fun x hx => hviews x ((L.arrange_perm ds).mem_iff.1 hx)) (by omega) hfresh hin rfl

end

end VCodec
