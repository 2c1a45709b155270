import VCodec.Cbor.Emit

/-!
# The order of entries

Deterministic encoding forgets the order in which a map lists its entries: the writer sorts the
entries by their encoded keys and refuses two that are equal, so any two orders have the same bytes
or are both refused. What is left out of a struct is decided by `operator==` on the member, which
the order may matter to; where it does, the two objects are not the same.
-/

namespace VCodec

/-- The same value, up to the order of the entries of its maps at any level. -/
inductive Reordered : Val → Val → Prop
  | refl (v : Val) : Reordered v v
  | trans {u v w : Val} (h : Reordered u v) (h' : Reordered v w) : Reordered u w
  | entries {es es' : List (Key × Val)} (h : es.Perm es') : Reordered (.map es) (.map es')
  | some {v w : Val} (h : Reordered v w) : Reordered (.some v) (.some w)
  | variant {i : Nat} {v w : Val} (h : Reordered v w) : Reordered (.variant i v) (.variant i w)
  | item {l r : List Val} {v w : Val} (h : Reordered v w) :
      Reordered (.seq (l ++ v :: r)) (.seq (l ++ w :: r))
  | value {l r : List (Key × Val)} {k : Key} {v w : Val} (h : Reordered v w) :
    Reordered (.map (l ++ (k, v) :: r)) (.map (l ++ (k, w) :: r))

/-- The same document, up to the order of the entries of its maps that are sorted. -/
inductive Shuffled : Doc → Doc → Prop
  | refl (d : Doc) : Shuffled d d
  | trans {c d e : Doc} (h : Shuffled c d) (h' : Shuffled d e) : Shuffled c e
  | entries {f : FieldMeta} {n : Option Nat} {es es' : List (DocKey × Doc)} (h : es.Perm es') :
    Shuffled (.map f n es) (.map f n es')
  | range {t : Ty} {v w : Val} (h : Cbor.rangeData t v = Cbor.rangeData t w) :
      Shuffled (.range t v) (.range t w)
  | tag {n : Nat} {d e : Doc} (h : Shuffled d e) : Shuffled (.tag n d) (.tag n e)
  | item {f : FieldMeta} {n : Option Nat} {l r : List Doc} {d e : Doc} (h : Shuffled d e) :
    Shuffled (.array f n (l ++ d :: r)) (.array f n (l ++ e :: r))
  | value {f : FieldMeta} {n : Option Nat} {l r : List (DocKey × Doc)} {k : DocKey} {d e : Doc}
      (h : Shuffled d e) :
    Shuffled (.map f n (l ++ (k, d) :: r)) (.map f n (l ++ (k, e) :: r))
  | member {n : Nat} {l r : List (DocKey × Doc)} {k : DocKey} {d e : Doc} (h : Shuffled d e) :
    Shuffled (.members n (l ++ (k, d) :: r)) (.members n (l ++ (k, e) :: r))

namespace Cbor

variable {o : Options}

/-! ### Documents -/

/-- Sorted entries with different keys do not tell in which order they came. -/
theorem sortEntriesBytes_of_perm {kvs kvs' : List (Bytes × Bytes)} (h : kvs.Perm kvs')
    (hnodup : (kvs.map Prod.fst).Nodup) : sortEntriesBytes kvs = sortEntriesBytes kvs' := by
  have hperm : (sortEntriesBytes kvs).Perm kvs := List.perm_insertionSort _ _
  have hperm' : (sortEntriesBytes kvs').Perm kvs' := List.perm_insertionSort _ _
  refine @List.Perm.eq_of_pairwise _ (fun a b => a.1 ≤ b.1) _ _ ?_ (List.pairwise_insertionSort _ _)
    (List.pairwise_insertionSort _ _) (hperm.trans (h.trans hperm'.symm))
  intro a b ha hb hab hba
  exact List.inj_on_of_nodup_map hnodup (hperm.mem_iff.1 ha) (h.mem_iff.2 (hperm'.mem_iff.1 hb))
    (le_antisymm hab hba)

/-- The writer refuses and writes the same. -/
structure SameWire (o : Options) (d e : Doc) : Prop where
  sound : ∀ n, Sound o n d ↔ Sound o n e
  distinct : Distinct d ↔ Distinct e
  wire : o.deterministic = true → Distinct d → wire o d = wire o e

namespace SameWire

variable {c d e : Doc}

theorem refl (d : Doc) : SameWire o d d := ⟨fun _ => Iff.rfl, Iff.rfl, fun _ _ => rfl⟩

theorem trans (h : SameWire o c d) (h' : SameWire o d e) : SameWire o c e where
  sound n := (h.sound n).trans (h'.sound n)
  distinct := h.distinct.trans h'.distinct
  wire hdet hc := (h.wire hdet hc).trans (h'.wire hdet (h.distinct.1 hc))

theorem entries (f : FieldMeta) (n : Option Nat) {es es' : List (DocKey × Doc)} (h : es.Perm es') :
    SameWire o (.map f n es) (.map f n es') where
  sound m := by
    simp only [Sound, soundEntries_iff, h.mem_iff]
  distinct := by
    simp only [Distinct, distinctEntries_iff, h.mem_iff, (h.map fun e => wireKey e.1).nodup_iff]
  wire hdet hd := by
    have hperm : (wireEntries o es).Perm (wireEntries o es') := by
      rw [wireEntries_eq, wireEntries_eq]
      exact h.map _
    have hnodup : ((wireEntries o es).map Prod.fst).Nodup := map_fst_wireEntries (o := o) es ▸ hd.1
    simp only [Cbor.wire, mapBytes, hdet, if_pos]
    rw [hperm.length_eq, sortEntriesBytes_of_perm hperm hnodup]

theorem tag (n : Nat) (h : SameWire o d e) : SameWire o (.tag n d) (.tag n e) where
  sound := h.sound
  distinct := h.distinct
  wire hdet hd := congrArg (makeHead .tag n ++ ·) (h.wire hdet hd)

theorem item (f : FieldMeta) (n : Option Nat) (l r : List Doc) (h : SameWire o d e) :
    SameWire o (.array f n (l ++ d :: r)) (.array f n (l ++ e :: r)) where
  sound m := by
    simp only [Sound, soundAll_iff, List.forall_mem_append, List.forall_mem_cons, h.sound]
  distinct := by
    simp only [Distinct, distinctAll_iff, List.forall_mem_append, List.forall_mem_cons, h.distinct]
  wire hdet hd := by
    simp only [Distinct, distinctAll_iff, List.forall_mem_append, List.forall_mem_cons] at hd
    simp only [Cbor.wire, wireEach_eq, List.map_append, List.map_cons, h.wire hdet hd.2.1]

theorem sound_value (l r : List (DocKey × Doc)) (k : DocKey) (h : SameWire o d e) (n : Nat) :
    SoundEntries o n (l ++ (k, d) :: r) ↔ SoundEntries o n (l ++ (k, e) :: r) := by
  simp only [soundEntries_iff, List.forall_mem_append, List.forall_mem_cons, h.sound]

theorem distinct_value (l r : List (DocKey × Doc)) (k : DocKey) (h : SameWire o d e) :
    DistinctEntries (l ++ (k, d) :: r) ↔ DistinctEntries (l ++ (k, e) :: r) := by
  simp only [distinctEntries_iff, List.forall_mem_append, List.forall_mem_cons, h.distinct]

theorem wire_value (l r : List (DocKey × Doc))
    (k : DocKey) (h : SameWire o d e) (hdet : o.deterministic = true)
    (hd : DistinctEntries (l ++ (k, d) :: r)) :
    wireEntries o (l ++ (k, d) :: r) = wireEntries o (l ++ (k, e) :: r) := by
  simp only [distinctEntries_iff, List.forall_mem_append, List.forall_mem_cons] at hd
  simp only [wireEntries_eq, List.map_append, List.map_cons, h.wire hdet hd.2.1]

theorem value (f : FieldMeta) (n : Option Nat) (l r : List (DocKey × Doc))
    (k : DocKey) (h : SameWire o d e) :
    SameWire o (.map f n (l ++ (k, d) :: r)) (.map f n (l ++ (k, e) :: r)) where
  sound m := and_congr_right fun _ => h.sound_value l r k (m + 1)
  distinct := by
    simp only [Distinct, h.distinct_value l r k, List.map_append, List.map_cons]
  wire hdet hd := by
    simp only [Cbor.wire, h.wire_value l r k hdet hd.2]

theorem member (n : Nat) (l r : List (DocKey × Doc)) (k : DocKey) (h : SameWire o d e) :
    SameWire o (.members n (l ++ (k, d) :: r)) (.members n (l ++ (k, e) :: r)) where
  sound m := and_congr_right fun _ => h.sound_value l r k (m + 1)
  distinct := h.distinct_value l r k
  wire hdet hd := by
    simp only [Cbor.wire, h.wire_value l r k hdet hd]

end SameWire

/-- The order of the entries makes no difference to the writer. -/
theorem sameWire_of_shuffled {d e : Doc} (h : Shuffled d e) : SameWire o d e := by
  induction h with
  | refl d => exact .refl d
  | trans _ _ ih ih' => exact ih.trans ih'
  | entries h => exact .entries _ _ h
  | range h => exact ⟨fun _ => Iff.rfl, Iff.rfl, fun _ _ => by simp only [wire, h]⟩
  | tag _ ih => exact ih.tag _
  | item _ ih => exact ih.item _ _ _ _
  | value _ ih => exact ih.value _ _ _ _ _
  | member _ ih => exact ih.member _ _ _ _

end Cbor

/-! ### Values -/

section

variable {α β : Type} {S : α → α → Prop} {T : β → β → Prop}

theorem rel_map {f g : α → β} {x y : Option α} (hfg : ∀ a b, S a b → T (f a) (g b))
    (h : Option.Rel S x y) :
    Option.Rel T (x.map f) (y.map g) := by
  cases h with
  | none => exact .none
  | some h => exact .some (hfg _ _ h)

theorem rel_cases {x y : Option α} (h : Option.Rel S x y) :
    (x = none ∧ y = none) ∨ ∃ a b, x = some a ∧ y = some b ∧ S a b := by
  cases h with
  | none => exact .inl ⟨rfl, rfl⟩
  | some h => exact .inr ⟨_, _, rfl, rfl, h⟩

/-- Related parts make related wholes, or none. -/
theorem rel_mapM {xs ys : List (Option α)} (h : List.Forall₂ (Option.Rel S) xs ys) :
    Option.Rel (List.Forall₂ S) (xs.mapM id) (ys.mapM id) := by
  induction h with
  | nil => exact .some .nil
  | cons h _ ih =>
    rw [mapM_id_cons, mapM_id_cons]
    cases h with
    | none => exact .none
    | some h => exact rel_map (fun _ _ => .cons h) ih

theorem perm_mapM {xs ys : List (Option α)} (h : xs.Perm ys) :
    Option.Rel List.Perm (xs.mapM id) (ys.mapM id) := by
  induction h with
  | nil => exact .some .nil
  | cons x _ ih =>
    rw [mapM_id_cons, mapM_id_cons]
    cases x with
    | none => exact .none
    | some a => exact rel_map (fun _ _ => .cons a) ih
  | swap x y xs =>
    simp only [mapM_id_cons]
    cases x <;> cases y <;> cases xs.mapM id <;> first | exact .none | exact .some (.swap _ _ _)
  | @trans xs ys zs _ _ ih ih' =>
    revert ih ih'
    generalize xs.mapM id = x, ys.mapM id = y, zs.mapM id = z
    intro ih ih'
    cases ih with
    | none => exact ih'
    | some h =>
      cases ih' with
      | some h' => exact .some (h.trans h')

/-- What holds of a change in one place holds of changes in all. -/
theorem each_place
    {g : List α → Doc} (hg : ∀ l r a b, S a b → Shuffled (g (l ++ a :: r)) (g (l ++ b :: r)))
    {as bs : List α} (h : List.Forall₂ S as bs) (l : List α) :
    Shuffled (g (l ++ as)) (g (l ++ bs)) := by
  induction h generalizing l with
  | nil => exact .refl _
  | @cons a b as bs h _ ih =>
    refine .trans (hg l as a b h) ?_
    have hrest := ih (l ++ [b])
    rwa [List.append_assoc, List.append_assoc] at hrest

end

/-- No document on either side, or the same one up to the order of entries. -/
abbrev SameDoc : Option Doc → Option Doc → Prop := Option.Rel Shuffled

/-- An entry at the same place of two objects. -/
def SameEntry (x y : DocKey × Doc) : Prop := x.1 = y.1 ∧ Shuffled x.2 y.2

theorem SameDoc.of_eq {x y : Option Doc} (h : x = y) : SameDoc x y := by
  subst h
  cases x with
  | none => exact .none
  | some d => exact .some (.refl d)

theorem SameDoc.trans {x y z : Option Doc} (h : SameDoc x y) (h' : SameDoc y z) : SameDoc x z := by
  cases h with
  | none => exact h'
  | some h =>
    cases h' with
    | some h' => exact .some (.trans h h')

theorem Shuffled.array (f : FieldMeta) (n : Option Nat) {ds es : List Doc}
    (h : List.Forall₂ Shuffled ds es) :
    Shuffled (.array f n ds) (.array f n es) :=
  each_place (g := .array f n) (fun _ _ _ _ h => .item h) h []

theorem Shuffled.map (f : FieldMeta) (n : Option Nat) {ds es : List (DocKey × Doc)}
    (h : List.Forall₂ SameEntry ds es) : Shuffled (.map f n ds) (.map f n es) := by
  refine each_place (S := SameEntry) (g := .map f n) ?_ h []
  rintro l r ⟨k, d⟩ ⟨_, e⟩ ⟨rfl, h⟩
  exact .value h

theorem Shuffled.members (n : Nat) {ds es : List (DocKey × Doc)}
    (h : List.Forall₂ SameEntry ds es) :
    Shuffled (.members n ds) (.members n es) := by
  refine each_place (S := SameEntry) (g := .members n) ?_ h []
  rintro l r ⟨k, d⟩ ⟨_, e⟩ ⟨rfl, h⟩
  exact .member h

/-- No member that a comparison may leave out of its object tells the orders of entries apart. -/
def BlindDefaults (env : Env) : Prop :=
  ∀ id, ∀ f ∈ (env.structs id).fields, f.skipIfDefault = true →
    ∀ v v', Reordered v v' → env.equal f.ty v f.initial = env.equal f.ty v' f.initial

section

variable {env : Env} {tr : Traits} {order : StructDef → List Nat}

/-- The object a value is the members of. -/
def objectDoc (env : Env) (tr : Traits) (order : StructDef → List Nat) (d : StructDef)
    (tagKey tagValue : Bytes) :
    Val → Option Doc
  | .seq vs => lowerStruct env tr order d tagKey tagValue (lowerFields env tr order d.fields vs)
  | _ => none

/-- What is written for the one is written for the other, wherever they stand. -/
structure Alike (env : Env) (tr : Traits) (order : StructDef → List Nat) (v v' : Val) : Prop where
  plain : ∀ f t, SameDoc (lower env tr order f t v) (lower env tr order f t v')
  member : ∀ f t {x x'}, SameDoc x x' →
    SameDoc (lowerFieldValue env tr f x t v) (lowerFieldValue env tr f x' t v')
  object : ∀ id tagKey tagValue, SameDoc (objectDoc env tr order (env.structs id) tagKey tagValue v)
    (objectDoc env tr order (env.structs id) tagKey tagValue v')
  byte : asBytes (.seq [v]) = asBytes (.seq [v'])
  element : ∀ t, Cbor.elementBytes t v = Cbor.elementBytes t v'
  null : v = .null ↔ v' = .null

theorem lowerFieldValue_plain
    {f : FieldMeta} {x : Option Doc} {t : Ty} {v : Val} (ht : ∀ u, t ≠ .optional u) :
    lowerFieldValue env tr f x t v =
      (if tr.bulkRange f t then some (.range t v) else x).map
        ((tr.expectedTags env f t).foldr .tag) := by
  cases t <;> first | rfl | exact absurd rfl (ht _)

theorem lowerFieldValue_null
    {f : FieldMeta} {x : Option Doc} {t : Ty} {v : Val} (hv : ∀ w, v ≠ .some w) :
    lowerFieldValue env tr f x (.optional t) v = some .null := by
  cases v <;> first | rfl | exact absurd rfl (hv _)

theorem shuffled_tags (ts : List Nat) {d e : Doc} (h : Shuffled d e) :
    Shuffled (ts.foldr .tag d) (ts.foldr .tag e) := by
  induction ts with
  | nil => exact h
  | cons t ts ih => exact ih.tag

/-- A member that is no optional, with its tags or in bulk. -/
theorem same_member {f : FieldMeta} {t : Ty} {v v' : Val} {x x' : Option Doc}
    (ht : ∀ u, t ≠ .optional u) (hrange : Cbor.rangeData t v = Cbor.rangeData t v')
    (h : SameDoc x x') :
    SameDoc (lowerFieldValue env tr f x t v) (lowerFieldValue env tr f x' t v') := by
  rw [lowerFieldValue_plain ht, lowerFieldValue_plain ht]
  refine rel_map (S := Shuffled) (fun _ _ => shuffled_tags _) ?_
  split
  · exact .some (.range hrange)
  · exact h

/-- A member whose value is not held by an optional. -/
theorem same_member_of_bare (v v' : Val) (hv : ∀ w, v ≠ .some w) (hv' : ∀ w, v' ≠ .some w)
    (hrange : ∀ t, Cbor.rangeData t v = Cbor.rangeData t v') (f : FieldMeta)
    (t : Ty) {x x' : Option Doc} (h : SameDoc x x') :
    SameDoc (lowerFieldValue env tr f x t v) (lowerFieldValue env tr f x' t v') := by
  by_cases ht : ∃ u, t = .optional u
  · obtain ⟨u, rfl⟩ := ht
    rw [lowerFieldValue_null hv, lowerFieldValue_null hv']
    exact .some (.refl _)
  · exact same_member (fun u hu => ht ⟨u, hu⟩) (hrange t) h

/-! ### Objects -/

/-- The same member of two objects. -/
structure SameMember (env : Env) (tr : Traits) (m m' : DocMember) : Prop where
  field : m.field = m'.field
  plain : SameDoc m.doc m'.doc
  full : SameDoc (lowerFieldValue env tr m.field.info m.doc m.field.ty m.value)
    (lowerFieldValue env tr m'.field.info m'.doc m'.field.ty m'.value)
  omits : m.field.omits env m.value = m'.field.omits env m'.value

theorem SameMember.refl (m : DocMember) : SameMember env tr m m :=
  ⟨rfl, .of_eq rfl, .of_eq rfl, rfl⟩

theorem SameMember.emitted {m m' : DocMember} (h : SameMember env tr m m') :
    m.emitted env = m'.emitted env := by
  unfold DocMember.emitted
  rw [h.field, ← h.omits, h.field]

theorem SameMember.entry {m m' : DocMember} (h : SameMember env tr m m') (d : StructDef) :
    Option.Rel SameEntry (m.entry env tr d) (m'.entry env tr d) := by
  refine rel_map (S := Shuffled) (fun a b hab => ⟨?_, hab⟩) h.full
  rw [h.field]

theorem same_filter {ms ms' : List DocMember} (h : List.Forall₂ (SameMember env tr) ms ms') :
    (ms.filter (DocMember.emitted env)).length = (ms'.filter (DocMember.emitted env)).length := by
  induction h with
  | nil => rfl
  | @cons m m' ms ms' h _ ih =>
    rw [List.filter_cons, List.filter_cons, h.emitted]
    split
    · rw [List.length_cons, List.length_cons, ih]
    · exact ih

theorem same_written (d : StructDef) {ms ms' : List DocMember}
    (h : List.Forall₂ (SameMember env tr) ms ms') :
    List.Forall₂ (SameMember env tr) (written env order d ms) (written env order d ms') := by
  unfold written
  induction order d with
  | nil => exact .nil
  | cons i is ih =>
    have hone : Option.Rel (SameMember env tr) (ms[i]?.filter (DocMember.emitted env))
        (ms'[i]?.filter (DocMember.emitted env)) := by
      by_cases hi : i < ms.length
      · have hi' : i < ms'.length := h.length_eq ▸ hi
        have hget : SameMember env tr ms[i] ms'[i] := List.Forall₂.get h hi hi'
        rw [List.getElem?_eq_getElem hi, List.getElem?_eq_getElem hi', Option.filter_some,
          Option.filter_some,
          hget.emitted]
        split
        · exact .some hget
        · exact .none
      · rw [List.getElem?_eq_none (not_lt.1 hi), List.getElem?_eq_none (h.length_eq ▸ not_lt.1 hi)]
        exact .none
    rw [List.filterMap_cons, List.filterMap_cons]
    rcases rel_cases hone with ⟨hx, hy⟩ | ⟨a, b, hx, hy, h⟩
    · rw [hx, hy]
      exact ih
    · rw [hx, hy]
      exact .cons h ih

theorem same_lowerStruct (d : StructDef) (tagKey tagValue : Bytes) {ms ms' : List DocMember}
    (h : List.Forall₂ (SameMember env tr) ms ms') :
    SameDoc (lowerStruct env tr order d tagKey tagValue ms)
      (lowerStruct env tr order d tagKey tagValue ms') := by
  unfold lowerStruct
  split
  · cases h with
    | nil => exact .none
    | cons h hs =>
      cases hs with
      | nil => exact h.plain
      | cons _ _ => exact .none
  · have hentries : Option.Rel (List.Forall₂ SameEntry)
        (((written env order d ms).map (DocMember.entry env tr d)).mapM id)
        (((written env order d ms').map (DocMember.entry env tr d)).mapM id) := by
      refine rel_mapM (List.forall₂_map_left_iff.2 (List.forall₂_map_right_iff.2 ?_))
      exact (same_written d h).imp fun _ _ h => h.entry d
    rw [same_filter h]
    change SameDoc (Option.bind _ _) (Option.bind _ _)
    rcases rel_cases hentries with ⟨hx, hy⟩ | ⟨es, es', hx, hy, hes⟩
    · rw [hx, hy]
      exact .none
    · rw [hx, hy, Option.bind_some, Option.bind_some]
      split
      · exact .some (.members _ hes)
      · exact .some (.map _ _ (.cons ⟨rfl, .refl _⟩ hes))

theorem omits_congr {f : Field} {v v' : Val} (hnull : v = .null ↔ v' = .null)
    (hequal : f.skipIfDefault = true → env.equal f.ty v f.initial = env.equal f.ty v' f.initial) :
    f.omits env v = f.omits env v' := by
  rw [Bool.eq_iff_iff, Field.omits_iff, Field.omits_iff, hnull]
  exact or_congr_right (and_congr_right fun hskip => by rw [hequal hskip])

/-- A change of one member of an object. -/
theorem same_objectDoc (hblind : BlindDefaults env) {l r : List Val} {v v' : Val}
    (h : Alike env tr order v v') (hvv : Reordered v v') (id : Nat) (tagKey tagValue : Bytes) :
    SameDoc (objectDoc env tr order (env.structs id) tagKey tagValue (.seq (l ++ v :: r)))
      (objectDoc env tr order (env.structs id) tagKey tagValue (.seq (l ++ v' :: r))) := by
  have hfields : ∀ (fs : List Field), (∀ f ∈ fs, f ∈ (env.structs id).fields) → ∀ l,
      List.Forall₂ (SameMember env tr) (lowerFields env tr order fs (l ++ v :: r))
        (lowerFields env tr order fs (l ++ v' :: r)) := by
    intro fs
    induction fs with
    | nil =>
      intro _ l
      cases l <;> exact .nil
    | cons f fs ih =>
      intro hmem l
      cases l with
      | cons w l => exact .cons (.refl _) (ih (fun g hg => hmem g (.tail _ hg)) l)
      | nil =>
        refine .cons ⟨rfl, h.plain f.info f.ty, h.member f.info f.ty (h.plain f.info f.ty), ?_⟩ ?_
        · exact omits_congr h.null fun hskip => hblind id f (hmem f (.head _)) hskip v v' hvv
        · exact List.forall₂_same.2 fun m _ => .refl m
  exact same_lowerStruct _ _ _ (hfields _ (fun f h => h) l)

/-! ### Values -/

namespace Alike

variable {u v v' : Val}

theorem refl (v : Val) : Alike env tr order v v where
  plain _ _ := .of_eq rfl
  member f t x x' h := by
    fun_induction lowerFieldValue env tr f x t v with
    | case1 t v ih => exact ih
    | case2 t v hv =>
      rw [lowerFieldValue_null hv]
      exact .some (.refl _)
    | case3 t v ht ht' =>
      rw [lowerFieldValue.eq_3 _ _ _ _ _ _ ht' ht]
      refine rel_map (S := Shuffled) (fun _ _ => shuffled_tags _) ?_
      split
      · exact .some (.refl _)
      · exact h
  object _ _ _ := .of_eq rfl
  byte := rfl
  element _ := rfl
  null := Iff.rfl

theorem trans (h : Alike env tr order u v) (h' : Alike env tr order v v') :
    Alike env tr order u v' where
  plain f t := (h.plain f t).trans (h'.plain f t)
  member f t _ _ hx := (h.member f t (.of_eq rfl)).trans (h'.member f t hx)
  object id tagKey tagValue := (h.object id tagKey tagValue).trans (h'.object id tagKey tagValue)
  byte := h.byte.trans h'.byte
  element t := (h.element t).trans (h'.element t)
  null := h.null.trans h'.null

theorem entries {es es' : List (Key × Val)} (h : es.Perm es') :
    Alike env tr order (.map es) (.map es') where
  plain f t := by
    cases t with
    | map kind kt t =>
      have hentries : ∀ es : List (Key × Val), lowerEntries env tr order f kt t es =
          es.map fun e => (lowerKey kt e.1).bind fun k => (lower env tr order f t e.2).map fun d =>
            (k, d) := by
        intro es
        induction es with
        | nil => rfl
        | cons e es ih =>
          obtain ⟨k, v⟩ := e
          rw [lowerEntries, ih, List.map_cons]
      rw [lower, lower, h.length_eq, hentries, hentries]
      exact rel_map (S := List.Perm) (fun _ _ => .entries) (perm_mapM (h.map _))
    | _ => exact .none
  member f t _ _ hx :=
    same_member_of_bare (.map es) (.map es') (fun _ => nofun) (fun _ => nofun) (fun _ => rfl) f t hx
  object _ _ _ := .none
  byte := rfl
  element t := by cases t <;> rfl
  null := iff_of_false nofun nofun

theorem some (h : Alike env tr order v v') : Alike env tr order (.some v) (.some v') where
  plain f t := by
    cases t with
    | optional t => exact h.plain f t
    | _ => exact .none
  member f t _ _ hx := by
    by_cases ht : ∃ u, t = .optional u
    · obtain ⟨u, rfl⟩ := ht
      exact h.member f u hx
    · exact same_member (fun u hu => ht ⟨u, hu⟩) rfl hx
  object _ _ _ := .none
  byte := rfl
  element t := by cases t <;> rfl
  null := iff_of_false nofun nofun

theorem lower_variant (f : FieldMeta) (alts : List (Bytes × Ty)) (i : Nat) (v : Val) :
    lower env tr order f (.variant alts) (.variant i v) = (alts[i]?).bind fun alt =>
      match internallyTagged env alt.2 with
      | Option.some d => objectDoc env tr order d (f.tagKey.getD []) alt.1 v
      | none => (lower env tr order noField alt.2 v).map fun d =>
        .map noField (Option.some 2) [(.text (f.tagKey.getD []), .text noField alt.1),
          (.name variantValueKey, d)] := by
  rw [lower]
  cases alts[i]? with
  | none => rfl
  | some alt =>
    obtain ⟨name, t⟩ := alt
    simp only [Option.bind_some]
    cases internallyTagged env t with
    | some d => cases v <;> rfl
    | none => rfl

theorem variant {i : Nat} (h : Alike env tr order v v') :
    Alike env tr order (.variant i v) (.variant i v') where
  plain f t := by
    cases t with
    | variant alts =>
      rw [lower_variant, lower_variant]
      cases alts[i]? with
      | none => exact .none
      | some alt =>
        obtain ⟨name, t⟩ := alt
        simp only [Option.bind_some]
        cases hd : internallyTagged env t with
        | some d =>
          obtain ⟨id, -, rfl, -⟩ := internallyTagged_eq_some hd
          exact h.object id _ _
        | none =>
          refine rel_map (S := Shuffled) (fun d e hde => ?_) (h.plain noField t)
          exact .value (l := [_]) hde
    | _ => exact .none
  member f t _ _ hx :=
    same_member_of_bare (.variant i v) (.variant i v') (fun _ => nofun) (fun _ => nofun)
      (fun _ => rfl) f t hx
  object _ _ _ := .none
  byte := rfl
  element t := by cases t <;> rfl
  null := iff_of_false nofun nofun

theorem asBytes_append (l r : List Val) :
    asBytes (.seq (l ++ r)) = asBytes (.seq l) ++ asBytes (.seq r) :=
  List.map_append

theorem lowerAll_eq (f : FieldMeta) (t : Ty) (vs : List Val) :
    lowerAll env tr order f t vs = vs.map (lower env tr order f t) := by
  induction vs with
  | nil => rfl
  | cons v vs ih => rw [lowerAll, ih, List.map_cons]

/-- The elements of a range, one of which changes. -/
theorem same_all (h : Alike env tr order v v') (f : FieldMeta) (n : Option Nat) (t : Ty)
    (l r : List Val) :
    SameDoc (((lowerAll env tr order f t (l ++ v :: r)).mapM id).map (.array f n))
      (((lowerAll env tr order f t (l ++ v' :: r)).mapM id).map (.array f n)) := by
  have hall : List.Forall₂ SameDoc (lowerAll env tr order f t (l ++ v :: r))
    (lowerAll env tr order f t (l ++ v' :: r)) := by
    rw [lowerAll_eq, lowerAll_eq, List.map_append, List.map_append, List.map_cons, List.map_cons]
    refine List.rel_append ?_ (.cons (h.plain f t) ?_)
    · exact List.forall₂_same.2 fun x _ => .of_eq rfl
    · exact List.forall₂_same.2 fun x _ => .of_eq rfl
  exact rel_map (S := List.Forall₂ Shuffled) (fun _ _ => .array f n) (rel_mapM hall)

/-- The elements of a tuple, one of which changes. -/
theorem same_each (h : Alike env tr order v v') (f : FieldMeta) (ts : List Ty) (l r : List Val) :
    List.Forall₂ SameDoc (lowerEach env tr order f ts (l ++ v :: r))
      (lowerEach env tr order f ts (l ++ v' :: r)) := by
  induction l generalizing ts with
  | nil =>
    cases ts with
    | nil => exact .nil
    | cons t ts => exact .cons (h.plain f t) (List.forall₂_same.2 fun x _ => .of_eq rfl)
  | cons w l ih =>
    cases ts with
    | nil => exact .nil
    | cons t ts => exact .cons (.of_eq rfl) (ih ts)

theorem item (hblind : BlindDefaults env) {l r : List Val} (h : Alike env tr order v v')
    (hvv : Reordered v v') :
    Alike env tr order (.seq (l ++ v :: r)) (.seq (l ++ v' :: r)) where
  plain f t := by
    have hbytes : asBytes (.seq (l ++ v :: r)) = asBytes (.seq (l ++ v' :: r)) := by
      rw [asBytes_append, asBytes_append, ← List.singleton_append, asBytes_append,
        h.byte, ← asBytes_append]
      rfl
    have hlen : (l ++ v :: r).length = (l ++ v' :: r).length := by
      rw [List.length_append, List.length_append, List.length_cons, List.length_cons]
    cases t with
    | tuple ts =>
      rw [lower, lower]
      refine rel_map (S := List.Forall₂ Shuffled) (fun ds es hde => ?_)
        (rel_mapM (h.same_each f ts l r))
      rw [hde.length_eq]
      exact .array _ _ hde
    | array n t =>
      rw [lower, lower, hbytes, hlen]
      split
      · exact .of_eq rfl
      · exact h.same_all f _ t l r
    | seq kind t =>
      rw [lower, lower, hbytes, hlen]
      split
      · exact .of_eq rfl
      · exact h.same_all f _ t l r
    | struct id => exact same_objectDoc hblind h hvv id [] []
    | _ => exact .none
  member f t _ _ hx := by
    refine same_member_of_bare (.seq _) (.seq _) (fun _ => nofun) (fun _ => nofun)
      (fun t => ?_) f t hx
    show (l ++ v :: r).flatMap _ = (l ++ v' :: r).flatMap _
    rw [List.flatMap_append, List.flatMap_append, List.flatMap_cons, List.flatMap_cons, h.element]
  object id tagKey tagValue := same_objectDoc hblind h hvv id tagKey tagValue
  byte := rfl
  element t := by cases t <;> rfl
  null := iff_of_false nofun nofun

theorem value {l r : List (Key × Val)} {k : Key} (h : Alike env tr order v v') :
    Alike env tr order (.map (l ++ (k, v) :: r)) (.map (l ++ (k, v') :: r)) where
  plain f t := by
    cases t with
    | map kind kt t =>
      have hentries : List.Forall₂ (Option.Rel SameEntry)
        (lowerEntries env tr order f kt t (l ++ (k, v) :: r))
          (lowerEntries env tr order f kt t (l ++ (k, v') :: r)) := by
        have hrefl : ∀ es, List.Forall₂ (Option.Rel SameEntry) es es := fun es =>
          List.forall₂_same.2 fun x _ => by
            cases x with
            | none => exact .none
            | some e => exact .some ⟨rfl, .refl _⟩
        induction l with
        | nil =>
          refine .cons ?_ (hrefl _)
          cases lowerKey kt k with
          | none => exact .none
          | some k => exact rel_map (S := Shuffled) (fun _ _ hde => ⟨rfl, hde⟩) (h.plain f t)
        | cons e l ih =>
          obtain ⟨k', w⟩ := e
          cases hrefl [(lowerKey kt k').bind fun k => (lower env tr order f t w).map fun d =>
            (k, d)] with
          | cons hone _ => exact .cons hone ih
      have hlen : (l ++ (k, v) :: r).length = (l ++ (k, v') :: r).length := by
        rw [List.length_append, List.length_append, List.length_cons, List.length_cons]
      rw [lower, lower, hlen]
      exact rel_map (S := List.Forall₂ SameEntry) (fun _ _ => .map _ _) (rel_mapM hentries)
    | _ => exact .none
  member f t _ _ hx :=
    same_member_of_bare (.map (l ++ (k, v) :: r)) (.map (l ++ (k, v') :: r)) (fun _ => nofun)
      (fun _ => nofun) (fun _ => rfl) f t hx
  object _ _ _ := .none
  byte := rfl
  element t := by cases t <;> rfl
  null := iff_of_false nofun nofun

end Alike

/-- Reordered values have the same documents, up to the order of entries. -/
theorem alike_of_reordered (hblind : BlindDefaults env) {v v' : Val} (h : Reordered v v') :
    Alike env tr order v v' := by
  induction h with
  | refl v => exact .refl v
  | trans _ _ ih ih' => exact ih.trans ih'
  | entries h => exact .entries h
  | some _ ih => exact ih.some
  | variant _ ih => exact ih.variant
  | item h ih => exact ih.item hblind h
  | value _ ih => exact ih.value

theorem sameDoc_lowerTop (hblind : BlindDefaults env) {v v' : Val} (h : Reordered v v') (t : Ty) :
    SameDoc (lowerTop env tr order t v) (lowerTop env tr order t v') :=
  have halike := alike_of_reordered hblind h
  halike.member noField t (halike.plain noField t)

end

/-! ### Encodings -/

namespace Cbor

variable {env : Env} {o : Options} {t : Ty}

/-- Deterministic encoding does not see the order of entries: it has the same bytes for both values,
or throws for both. Where nothing else is wrong with them, it is equal keys that it refuses. -/
theorem encode_reordered
    (hblind : BlindDefaults env) (hdet : (effective env o t).deterministic = true)
    {v v' : Val} (h : Reordered v v') :
    (∀ bs, encode env o t v = .ok bs ↔ encode env o t v' = .ok bs) ∧
      ∀ d, lowerTop env traits memberOrder t v = some d → Sound (effective env o t) 0 d →
        ((∃ e, encode env o t v = .error e ∧ e.code = .duplicateKey) ↔ ¬ Distinct d) := by
  constructor
  · intro bs
    rw [encode_ok_iff, encode_ok_iff]
    rcases rel_cases (sameDoc_lowerTop hblind h t) with ⟨hd, hd'⟩ | ⟨d, d', hd, hd', hsame⟩
    · rw [hd, hd']
    · have hwire := sameWire_of_shuffled (o := effective env o t) hsame
      have hone : ∀ (x : Doc) (p : Doc → Prop), (∃ d, some x = some d ∧ p d) ↔ p x := by simp
      rw [hd, hd', hone, hone, hwire.sound 0, hwire.distinct]
      refine and_congr_right fun _ => and_congr_right fun hdistinct => ?_
      rw [hwire.wire hdet (hwire.distinct.2 (hdistinct hdet))]
  · intro d hd hsound
    rw [encode_duplicateKey_iff hd hsound]
    exact not_congr ⟨fun h => h hdet, fun h _ => h⟩

theorem encode_reordered_witness :
    (∀ bs, encode default {} (.map .pairs (.text false) .bool)
        (.map [(.text (str "b"), .bool true), (.text (str "a"), .bool false)]) = .ok bs ↔
      encode default {} (.map .pairs (.text false) .bool)
        (.map [(.text (str "a"), .bool false), (.text (str "b"), .bool true)]) = .ok bs) ∧
      ∀ d, lowerTop default traits memberOrder (.map .pairs (.text false) .bool)
          (.map [(.text (str "b"), .bool true), (.text (str "a"), .bool false)]) = some d →
        Sound (effective default {} (.map .pairs (.text false) .bool)) 0 d →
          ((∃ e, encode default {} (.map .pairs (.text false) .bool)
              (.map [(.text (str "b"), .bool true), (.text (str "a"), .bool false)]) = .error e ∧
            e.code = .duplicateKey) ↔ ¬ Distinct d) :=
  encode_reordered (fun _ _ h => absurd h List.not_mem_nil) rfl (.entries (.swap _ _ _))

/-- The names and values of a vector of pairs. -/
def pairsOf (v : Val) : List (Key × Int) :=
  v.entries.map fun e => (e.1, match e.2 with
    | .int i => i
    | _ => 0)

/-- `struct limits { [[=skip_if_default]] std::vector<std::pair<std::string, uint8_t>> by_name{{"a", 1}, {"b", 2}}; };` -/
def limitsEnv : Env where
  __ := (default : Env)
  structs _ :=
    { name := str "limits"
      fields := [{
        info := { isMember := true, identifier := str "by_name" }
        ty := .map .pairs (.text false) (.int uint8)
        wireName := str "by_name"
        skipIfDefault := true
        required := false
        initial := .map [(.text (str "a"), .int 1), (.text (str "b"), .int 2)] }] }
  equal _ v w := pairsOf v = pairsOf w

def limitsEntry (es : List (Key × Val)) : Val := .map [(.text (str "x"), .seq [.map es])]

/-- A member in another order than its initializer's is not its default. -/
theorem encode_reordered_limits :
    Reordered (limitsEntry [(.text (str "a"), .int 1), (.text (str "b"), .int 2)])
        (limitsEntry [(.text (str "b"), .int 2), (.text (str "a"), .int 1)]) ∧
      encode limitsEnv {} (.map .pairs (.text false) (.struct 0))
          (limitsEntry [(.text (str "a"), .int 1), (.text (str "b"), .int 2)]) =
            .ok [0xA1, 0x61, 0x78, 0xA0] ∧
      encode limitsEnv {} (.map .pairs (.text false) (.struct 0))
          (limitsEntry [(.text (str "b"), .int 2), (.text (str "a"), .int 1)]) ≠ .ok
            [0xA1, 0x61, 0x78, 0xA0] := by
  refine ⟨.value (l := []) (.item (l := []) (.entries (.swap _ _ _))), ?_, ?_⟩
  · decide +kernel
  · decide +kernel

end Cbor

end VCodec
