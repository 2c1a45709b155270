import VCodec.Core.LandsStruct

/-!
# Reading the document of an object

What is written of the members of an object, in the order of the format, and what construction makes
of it, with the entries that it reads over.
-/

namespace VCodec

open D

variable {σ S M : Type} {env : Env} {F : Format} {r : Reader σ S M} {L : DocLaws env F r}

/-! ### What is written of an object -/

theorem getElem?_lowerFields
    {tr : Traits} {order : StructDef → List Nat} {fs : List Field} {vs : List Val} {i : Nat}
    {m : DocMember} : (lowerFields env tr order fs vs)[i]? = some m ↔
      ∃ f v, fs[i]? = some f ∧ vs[i]? = some v ∧ m = ⟨f, v, lower env tr order f.info f.ty v⟩ := by
  induction fs generalizing vs i with
  | nil => simp [lowerFields]
  | cons f fs ih =>
    cases vs with
    | nil => simp [lowerFields]
    | cons v vs =>
      rw [lowerFields]
      cases i with
      | zero => simp [eq_comm]
      | succ i => exact ih

/-- The entry of a member: it is read over, or it is where the member's value is read. -/
def MemberEntry (env : Env) (F : Format) (d : StructDef) (vs : List Val) (x : DocKey × Doc) :
    Option Nat → Prop
  | none =>
    ∃ (i : Nat) (f : Field), d.fields[i]? = some f ∧ f.skipDeserializing = true ∧
      x.1 = keyOf F.traits d f
  | some i =>
    ∃ f v, d.fields[i]? = some f ∧ vs[i]? = some v ∧ f.written env v = true ∧
      f.skipDeserializing = false ∧
    x.1 = keyOf F.traits d f ∧ lowerFieldValue env F.traits f.info
      (lower env F.traits F.order f.info f.ty v) f.ty v = some x.2

/-- Member `i` is written, and read. -/
def Crosses (env : Env) (d : StructDef) (vs : List Val) (i : Nat) : Prop :=
  ∃ f v, d.fields[i]? = some f ∧ vs[i]? = some v ∧ f.written env v = true ∧
    f.skipDeserializing = false

theorem lowered_entries {d : StructDef} {vs : List Val} {is : List Nat}
    (his : is.Nodup) {es : List (DocKey × Doc)}
    (h : ((is.filterMap fun i => (lowerFields env F.traits F.order d.fields vs)[i]?.filter
      (DocMember.emitted env)).map
      (DocMember.entry env F.traits d)).mapM id = some es) :
    ∃ os, List.Forall₂ (MemberEntry env F d vs) es os ∧ os.reduceOption.Nodup ∧
      ∀ i, i ∈ os.reduceOption ↔ i ∈ is ∧ Crosses env d vs i := by
  induction is generalizing es with
  | nil =>
    cases h
    exact ⟨[], .nil, List.nodup_nil, fun i => iff_of_false List.not_mem_nil fun h =>
      List.not_mem_nil h.1⟩
  | cons i is ih =>
    obtain ⟨hi, his⟩ := List.nodup_cons.1 his
    rw [List.filterMap_cons] at h
    cases hm : (lowerFields env F.traits F.order d.fields vs)[i]?.filter
      (DocMember.emitted env) with
    | none =>
      rw [hm] at h
      obtain ⟨os, hall, hnodup, hmem⟩ := ih his h
      refine ⟨os, hall, hnodup, fun j => (hmem j).trans (and_congr_left fun hj => ?_)⟩
      refine (List.mem_cons.trans (or_iff_right ?_)).symm
      rintro rfl
      obtain ⟨f, v, hf, hv, hw, -⟩ := hj
      have hemitted : DocMember.emitted env ⟨f, v, lower env F.traits F.order f.info f.ty v⟩ =
        true := hw
      rw [getElem?_lowerFields.2 ⟨f, v, hf, hv, rfl⟩, Option.filter_some, if_pos hemitted] at hm
      cases hm
    | some m =>
      obtain ⟨hget, hemitted⟩ := Option.filter_eq_some_iff.1 hm
      obtain ⟨f, v, hf, hv, rfl⟩ := getElem?_lowerFields.1 hget
      rw [hm, List.map_cons, mapM_id_cons] at h
      obtain ⟨x, hx, h⟩ := Option.bind_eq_some_iff.1 h
      obtain ⟨es, hes, rfl⟩ := Option.map_eq_some_iff.1 h
      obtain ⟨doc, hdoc, rfl⟩ := Option.map_eq_some_iff.1 hx
      obtain ⟨os, hall, hnodup, hmem⟩ := ih his hes
      have hnew : i ∉ os.reduceOption := fun h => hi ((hmem i).1 h).1
      cases hflag : f.skipDeserializing with
      | true =>
        refine ⟨none :: os, .cons ⟨i, f, hf, hflag, rfl⟩ hall, ?_, fun j => ?_⟩
        · rwa [List.reduceOption_cons_of_none]
        · rw [List.reduceOption_cons_of_none, hmem]
          refine and_congr_left fun hj => (List.mem_cons.trans (or_iff_right ?_)).symm
          rintro rfl
          obtain ⟨g, w, hg, -, -, hread⟩ := hj
          rw [hf] at hg
          cases hg
          rw [hflag] at hread
          cases hread
      | false =>
        refine ⟨some i :: os, .cons ⟨f, v, hf, hv, hemitted, hflag, rfl, hdoc⟩ hall, ?_,
          fun j => ?_⟩
        · rw [List.reduceOption_cons_of_some]
          exact List.nodup_cons.2 ⟨hnew, hnodup⟩
        · rw [List.reduceOption_cons_of_some, List.mem_cons, List.mem_cons, hmem, or_and_right]
          refine or_congr_left (iff_self_and.2 ?_)
          rintro rfl
          exact ⟨f, v, hf, hv, hemitted, hflag⟩

/-- The members that come back are those that are kept. -/
theorem memberBack_iff {d : StructDef} {vs : List Val} {old : Val} (is : List Nat)
    (hvs : vs.length = d.fields.length) (hold : Filled d old)
    (his : ∀ i, i ∈ is ↔ i < d.fields.length ∧ Crosses env d vs i) {P : Nat → Prop}
    (hP : ∀ i f v, d.fields[i]? = some f → vs[i]? = some v →
      (P i ↔ KeptMember env F everything f.info f.ty (old.item i) v)) :
    MemberBack env d old vs P is ↔ KeptFields env F everything d.fields old.items vs := by
  obtain ⟨ws, rfl, hws⟩ := hold
  show _ ↔ KeptFields env F everything d.fields ws vs
  rw [keptFields_iff (hws.trans hvs.symm)]
  refine forall₂_congr fun i f => forall_congr' fun v => forall₂_congr fun hf hv => ?_
  have hcross : i ∈ is ↔ f.written env v = true ∧ ¬ f.skipDeserializing = true := by
    rw [his, and_iff_right (List.getElem?_eq_some_iff.1 hf).1]
    constructor
    · rintro ⟨g, w, hg, hw, hwritten, hread⟩
      rw [hf] at hg
      rw [hv] at hw
      cases hg
      cases hw
      exact ⟨hwritten, by rw [hread]; exact Bool.false_ne_true⟩
    · rintro ⟨hwritten, hread⟩
      exact ⟨f, v, hf, hv, hwritten, by simpa using hread⟩
  unfold KeptAt
  by_cases hi : i ∈ is
  · rw [if_pos hi, if_pos (hcross.1 hi)]
    exact hP i f v hf hv
  · rw [if_neg hi, if_neg fun h => hi (hcross.2 h)]
    exact ⟨fun h _ => h, fun h => h trivial⟩

/-! ### Objects -/

/-- At the document of a member with the value, construction is followed. -/
def ReadsMember (L : DocLaws env F r) (v : Val) : Prop :=
  ∀ f t d old, Proper env f t v → Clear env F f t v → Shaped env t old →
    lowerFieldValue env F.traits f (lower env F.traits F.order f t v) t v = some d →
    Reads L (fun n => decodeFieldValue env r (decodeValue env r n f) f t) d old
      (KeptMember env F everything f t old v) (Like env t v)

/-- The decoder of the members of an object. -/
abbrev memberDec (env : Env) (r : Reader σ S M) (n : Nat) (f : FieldMeta) (t : Ty) : D σ Unit :=
  decodeFieldValue env r (decodeValue env r n f) f t

theorem filled_of_shaped {st : Nat} {old : Val} (h : Shaped env (.struct st) old) :
    Filled (env.structs st) old := by
  cases h with
  | parts hts hlen _ =>
    cases hts
    exact ⟨_, rfl, hlen.trans (List.length_map _)⟩
  | whole ht => cases ht

/-- An object is read from what is written of its members, and from what is read over. -/
theorem reads_object (ha : Vetted env F) {st : Nat} {ignoreKey : Bytes} {vs : List Val} {old : Val}
    (hproper : ProperFields env (env.structs st).fields vs) (hold : Shaped env (.struct st) old)
    (hclear : ∀ (i : Nat) f v, (env.structs st).fields[i]? = some f → vs[i]? = some v →
      f.written env v = true →
      f.skipDeserializing = false → Clear env F f.info f.ty v)
    (hmembers : ∀ v ∈ vs, ReadsMember L v) (extra : List (DocKey × Doc))
    {es xs : List (DocKey × Doc)}
    (hes : ((written env F.order (env.structs st)
      (lowerFields env F.traits F.order (env.structs st).fields vs)).map
      (DocMember.entry env F.traits (env.structs st))).mapM id = some es)
    (hextra : ∀ x ∈ extra, Skips F (env.structs st) ignoreKey x.1) (hxs : xs.Perm (extra ++ es))
    {doc : Doc} (hmap : ∀ s u, L.At doc s u → ∃ c t, r.expectMap s = .ok c t ∧ L.InMap c xs t u) :
    Reads L (fun n => decodeMembers r n (memberDec env r n) (env.structs st) ignoreKey) doc old
      (KeptFields env F everything (env.structs st).fields old.items vs)
      (Like env (.struct st) (.seq vs)) := by
  obtain ⟨hvs, hparts⟩ := properFields_iff.1 hproper
  have hfilled := filled_of_shaped hold
  have horder := L.order_perm (env.structs st)
  obtain ⟨os, hall, hnodup, hmem⟩ := lowered_entries (horder.nodup_iff.2 List.nodup_range) hes
  let P : Nat → Prop := fun i => ∀ f v, (env.structs st).fields[i]? = some f → vs[i]? = some v →
    KeptMember env F everything f.info f.ty (old.item i) v
  have hP : ∀ i f v, (env.structs st).fields[i]? = some f → vs[i]? = some v →
      (P i ↔ KeptMember env F everything f.info f.ty (old.item i) v) := by
    intro i f v hf hv
    refine ⟨fun h => h f v hf hv, fun h g w hg hw => ?_⟩
    rw [hf] at hg
    rw [hv] at hw
    cases hg
    cases hw
    exact h
  have hreads : List.Forall₂ (MemberReads L (memberDec env r) (env.structs st) ignoreKey vs old P)
      (extra ++ es) (extra.map (fun _ => none) ++ os) := by
    refine List.rel_append ?_ (hall.imp fun x o h => ?_)
    · exact List.forall₂_map_right_iff.2 (List.forall₂_same.2 hextra)
    · cases o with
      | none => exact .inr h
      | some i =>
        obtain ⟨f, v, hf, hv, hwritten, hflag, hk, hdoc⟩ := h
        have hshaped : Shaped env f.ty (old.item i) :=
          hold.part rfl (by rw [List.getElem?_map, hf]; rfl)
        refine ⟨f, v, hf, hv, hflag, hk, ?_⟩
        rw [hP i f v hf hv]
        exact hmembers v (List.mem_of_getElem? hv) f.info f.ty x.2 (old.item i) (hparts i f v hf hv)
          (hclear i f v hf hv hwritten hflag) hshaped hdoc
  obtain ⟨os', hreads', hperm⟩ := forall₂_perm hreads.flip hxs
  have hreduce : os'.reduceOption.Perm os.reduceOption := by
    have hnone : (extra.map (fun _ => (none : Option Nat)) ++ os).reduceOption =
      os.reduceOption := by
      rw [List.reduceOption_append]
      have hmapnone : ∀ l : List (DocKey × Doc),
        (l.map fun _ => (none : Option Nat)).reduceOption = [] := by
        intro l
        induction l with
        | nil => rfl
        | cons x l ih => exact ih
      rw [hmapnone, List.nil_append]
    rw [← hnone]
    exact hperm.filterMap id
  have hread := reads_decodeMembers ha hvs hfilled hmap hreads'.flip (hreduce.nodup_iff.2 hnodup)
  have hback := memberBack_iff (F := F) os'.reduceOption hvs hfilled (fun i => by
    rw [hreduce.mem_iff, hmem, horder.mem_iff, List.mem_range]) hP
  rw [hback] at hread
  exact hread

end VCodec
