import VCodec.Core.LandsVariant

/-!
# Reading the document of a value

The parts put together: from the document of a value of any type, construction comes back to the
value exactly if the value is one that is kept.
-/

namespace VCodec

open D

variable {σ S M : Type} {env : Env} {F : Format} {r : Reader σ S M} {L : DocLaws env F r}

/-! ### The documents of parts -/

section

variable {tr : Traits} {order : StructDef → List Nat} {f : FieldMeta}

theorem lowered_all {t : Ty} {vs : List Val} {ds : List Doc}
    (h : (lowerAll env tr order f t vs).mapM id = some ds) :
    List.Forall₂ (fun v d => lower env tr order f t v = some d) vs ds := by
  induction vs generalizing ds with
  | nil =>
    cases h
    exact .nil
  | cons v vs ih =>
    rw [lowerAll, mapM_id_cons] at h
    obtain ⟨d, hd, h⟩ := Option.bind_eq_some_iff.1 h
    obtain ⟨ds, hds, rfl⟩ := Option.map_eq_some_iff.1 h
    exact .cons hd (ih hds)

theorem lowered_each {ts : List Ty} {vs : List Val} {ds : List Doc} (hlen : vs.length = ts.length)
    (h : (lowerEach env tr order f ts vs).mapM id = some ds) : ds.length = vs.length ∧
      ∀ (i : Nat) t v d, ts[i]? = some t → vs[i]? = some v → ds[i]? = some d →
        lower env tr order f t v = some d := by
  induction vs generalizing ts ds with
  | nil =>
    obtain rfl := List.length_eq_zero_iff.1 hlen.symm
    cases h
    exact ⟨rfl, fun _ _ _ _ ht => by simp at ht⟩
  | cons v vs ih =>
    cases ts with
    | nil => cases hlen
    | cons t ts =>
      rw [lowerEach, mapM_id_cons] at h
      obtain ⟨d, hd, h⟩ := Option.bind_eq_some_iff.1 h
      obtain ⟨ds, hds, rfl⟩ := Option.map_eq_some_iff.1 h
      obtain ⟨hlength, hall⟩ := ih (Nat.succ.inj hlen) hds
      refine ⟨congrArg (· + 1) hlength, fun i t' v' d' ht hv hd' => ?_⟩
      cases i with
      | zero =>
        cases ht
        cases hv
        cases hd'
        exact hd
      | succ i => exact hall i t' v' d' ht hv hd'

theorem lowered_keys {kt : KeyTy} {t : Ty} {es : List (Key × Val)} {ds : List (DocKey × Doc)}
    (h : (lowerEntries env tr order f kt t es).mapM id = some ds) :
    List.Forall₂ (fun e x => lowerKey kt e.1 = some x.1 ∧ lower env tr order f t e.2 = some x.2) es
      ds := by
  induction es generalizing ds with
  | nil =>
    cases h
    exact .nil
  | cons e es ih =>
    obtain ⟨k, v⟩ := e
    rw [lowerEntries, mapM_id_cons] at h
    obtain ⟨x, hx, h⟩ := Option.bind_eq_some_iff.1 h
    obtain ⟨ds, hds, rfl⟩ := Option.map_eq_some_iff.1 h
    obtain ⟨key, hkey, hx⟩ := Option.bind_eq_some_iff.1 hx
    obtain ⟨d, hd, rfl⟩ := Option.map_eq_some_iff.1 hx
    exact .cons ⟨hkey, hd⟩ (ih hds)

end

/-! ### Containers -/

section

variable {f : FieldMeta} {t : Ty} {vs : List Val} {old : Val} {d : Doc}

/-- A range of elements, or the bytes of one. -/
theorem reads_seq (henv : env.Regular) {kind : SeqKind} (hvs : ∀ v ∈ vs, ReadsPlain L v)
    (hproper : Proper env f (.seq kind t) (.seq vs))
    (hclear : Clear env F f (.seq kind t) (.seq vs))
    (hd : lower env F.traits F.order f (.seq kind t) (.seq vs) = some d) :
    Reads L (fun n => decodeValue env r n f (.seq kind t)) d old
      (Kept env F everything f (.seq kind t) old (.seq vs)) (Like env (.seq kind t) (.seq vs)) := by
  have hkept : Kept env F everything f (.seq kind t) old (.seq vs) ↔
      F.traits.isBytes f (.seq kind t) = true ∨
        ∀ v ∈ vs, Kept env F everything f t (t.zero env) v :=
    or_congr_right keptEach_replicate
  rw [hkept]
  rw [lower] at hd
  split at hd
  · rename_i hbytes
    cases hd
    refine .value (fun _ => decodeBytes env r f (.seq kind t)) (fun n => ?_) ?_
    · rw [decodeValue, L.traits, if_pos hbytes]
    · simp only [hbytes, true_or]
      exact reads_bytes (.inr ⟨kind, rfl⟩) hbytes hproper
  · rename_i hbytes
    obtain ⟨ds, hds, rfl⟩ := Option.map_eq_some_iff.1 hd
    refine .value (fun n => decodeSequence env r n (decodeValue env r n f t) kind t)
      (fun n => ?_) ?_
    · rw [decodeValue, L.traits, if_neg hbytes]
    · simp only [hbytes, Bool.false_eq_true, false_or]
      obtain ⟨-, hparts⟩ := properEach_iff.1 hproper.1
      have hall : ∀ v ∈ vs, Proper env f t v := by
        intro v hv
        obtain ⟨i, hi⟩ := List.getElem?_of_mem hv
        refine hparts i t v ?_ hi
        rw [List.getElem?_replicate, if_pos (List.getElem?_eq_some_iff.1 hi).1]
      have helements :
        List.Forall₂ (fun v d => Reads L (fun n => decodeValue env r n f t) d (t.zero env)
          (Kept env F everything f t (t.zero env) v) (Like env t v)) vs ds := by
        refine ((List.forall₂_and_left ..).2
          ⟨fun v hv => And.intro hv (hvs v hv), lowered_all hds⟩).imp ?_
        exact fun v d h => h.1.2 f t d _ (hall v h.1.1) (hclear.part (.element h.1.1))
          (shaped_zero henv t) h.2
      refine reads_sequence helements fun hkind => ⟨hproper.2 hkind, ?_⟩
      subst hkind
      exact hclear.sets .self

/-- The elements of a tuple or of an array, one by one. -/
theorem reads_each {T : Ty} {all : List Ty} {f' : FieldMeta} {m : Option Nat}
    (hvs : ∀ v ∈ vs, ReadsPlain L v) (hslots : T.slots env = some all) (hold : Shaped env T old)
    (hproper : ProperEach env f all vs)
    (hclear : ∀ (i : Nat) t v, all[i]? = some t → vs[i]? = some v → Clear env F f t v)
    (hlike : ∀ w, Like env T (.seq vs) w ↔ ∃ ws, w = .seq ws ∧ LikeEach env all vs ws)
    {ds : List Doc} (hds : (lowerEach env F.traits F.order f all vs).mapM id = some ds) :
    Reads L (fun n => decodeElements r n (decodeValue env r n f) all) (.array f' m ds) old
      (KeptEach env F everything f all old.items vs) (Like env T (.seq vs)) := by
  obtain ⟨hlen, hparts⟩ := properEach_iff.1 hproper
  obtain ⟨hdlen, hdocs⟩ := lowered_each hlen hds
  have hitems : old.items.length = vs.length := (hold.length hslots).trans hlen.symm
  rw [keptEach_iff hitems]
  have hread := reads_elements (fun n t => decodeValue env r n f t) (L := L) (f := f') (m := m)
    (P := fun i => ∀ t v, all[i]? = some t → vs[i]? = some v →
      Kept env F everything f t (old.item i) v)
    hlen (hdlen.trans hlen) hold hslots hlike fun i t v d ht hv hd => ?_
  · refine hread.congr ⟨fun h i t v ht hv => h i (List.getElem?_eq_some_iff.1 ht).1 t v ht hv,
      fun h i _ t v => h i t v⟩
  · have h := hvs v (List.mem_of_getElem? hv) f t d (old.item i) (hparts i t v ht hv)
      (hclear i t v ht hv) (hold.part hslots ht)
      (hdocs i t v d ht hv hd)
    refine h.congr ⟨fun h t' v' ht' hv' => ?_, fun h => h t v ht hv⟩
    rw [ht] at ht'
    rw [hv] at hv'
    cases ht'
    cases hv'
    exact h

theorem lowerAll_replicate {tr : Traits} {order : StructDef → List Nat} (f : FieldMeta) (t : Ty)
    (vs : List Val) :
    lowerAll env tr order f t vs = lowerEach env tr order f (List.replicate vs.length t) vs := by
  induction vs with
  | nil => rw [lowerAll, lowerEach]; exact fun _ _ _ _ _ h => nomatch h
  | cons v vs ih => rw [lowerAll, ih, List.length_cons, List.replicate_succ, lowerEach]

theorem reads_tuple {ts : List Ty} (hvs : ∀ v ∈ vs, ReadsPlain L v)
    (hproper : Proper env f (.tuple ts) (.seq vs)) (hclear : Clear env F f (.tuple ts) (.seq vs))
    (hold : Shaped env (.tuple ts) old)
    (hd : lower env F.traits F.order f (.tuple ts) (.seq vs) = some d) :
    Reads L (fun n => decodeValue env r n f (.tuple ts)) d old
      (Kept env F everything f (.tuple ts) old (.seq vs)) (Like env (.tuple ts) (.seq vs)) := by
  obtain ⟨ds, hds, rfl⟩ := Option.map_eq_some_iff.1 hd
  refine .value (fun n => decodeElements r n (decodeValue env r n f) ts)
    (fun n => by rw [decodeValue]; rfl) ?_
  exact reads_each hvs rfl hold hproper (fun i t v ht hv => hclear.part (.slot ht hv))
    (fun w => Iff.rfl) hds

theorem reads_array {k : Nat} (hvs : ∀ v ∈ vs, ReadsPlain L v)
    (hproper : Proper env f (.array k t) (.seq vs)) (hclear : Clear env F f (.array k t) (.seq vs))
    (hold : Shaped env (.array k t) old)
    (hd : lower env F.traits F.order f (.array k t) (.seq vs) = some d) :
    Reads L (fun n => decodeValue env r n f (.array k t)) d old
      (Kept env F everything f (.array k t) old (.seq vs)) (Like env (.array k t) (.seq vs)) := by
  have hkept : Kept env F everything f (.array k t) old (.seq vs) ↔
      F.traits.isBytes f (.array k t) = true ∨
        KeptEach env F everything f (List.replicate vs.length t) old.items vs := Iff.rfl
  obtain rfl : vs.length = k := by
    rw [(properEach_iff.1 hproper).1, List.length_replicate]
  rw [hkept]
  rw [lower] at hd
  split at hd
  · rename_i hbytes
    cases hd
    refine .value (fun _ => decodeBytes env r f (.array vs.length t)) (fun n => ?_) ?_
    · rw [decodeValue, L.traits, if_pos hbytes]
    · simp only [hbytes, true_or]
      exact reads_bytes (.inl ⟨_, rfl⟩) hbytes hproper
  · rename_i hbytes
    obtain ⟨ds, hds, rfl⟩ := Option.map_eq_some_iff.1 hd
    rw [lowerAll_replicate] at hds
    refine .value (fun n => decodeElements r n (decodeValue env r n f) (List.replicate vs.length t))
      (fun n => ?_) ?_
    · rw [decodeValue, L.traits, if_neg hbytes]
      rfl
    · simp only [hbytes, Bool.false_eq_true, false_or]
      refine reads_each hvs rfl hold hproper (fun i u v hu hv => ?_) (fun w => Iff.rfl) hds
      obtain rfl := List.eq_of_mem_replicate (List.mem_of_getElem? hu)
      exact hclear.part (.item (List.mem_of_getElem? hv))

theorem reads_entries (henv : env.Regular) {kind : MapKind} {kt : KeyTy} {es : List (Key × Val)}
    (hes : ∀ e ∈ es, ReadsPlain L e.2) (hproper : Proper env f (.map kind kt t) (.map es))
    (hclear : Clear env F f (.map kind kt t) (.map es))
    (hd : lower env F.traits F.order f (.map kind kt t) (.map es) = some d) :
    Reads L (fun n => decodeValue env r n f (.map kind kt t)) d old
      (Kept env F everything f (.map kind kt t) old (.map es))
      (Like env (.map kind kt t) (.map es)) := by
  obtain ⟨ds, hds, rfl⟩ := Option.map_eq_some_iff.1 hd
  obtain ⟨hnodup, hkeys, hvalues⟩ := hproper
  rw [properEntries_iff] at hvalues
  have hlowered := lowered_keys hds
  have hentries : List.Forall₂ (fun e x => kt.Holds e.1 ∧ lowerKey kt e.1 = some x.1 ∧
      Reads L (fun n => decodeValue env r n f t) x.2 (t.zero env)
        (Kept env F everything f t (t.zero env) e.2)
        (Like env t e.2)) es ds := by
    refine ((List.forall₂_and_left ..).2
      ⟨fun e he => And.intro he (hes e he), hlowered⟩).imp ?_
    exact fun e x h => ⟨hkeys e h.1.1, h.2.1,
      h.1.2 f t x.2 _ (hvalues e h.1.1) (hclear.part (.entry h.1.1)) (shaped_zero henv t) h.2.2⟩
  refine .value (fun n => decodeMap env r n (decodeValue env r n f t) f kind kt t)
    (fun n => by rw [decodeValue]) ?_
  refine (reads_map hentries hnodup).congr ?_
  have hviews : (∀ x ∈ ds, ViewKey F kt x.1) ↔
      (kt = .text true → ∀ k v, (.text k, v) ∈ es → F.aliasesKey (.text k) = true) := by
    constructor
    · rintro h rfl k v he
      obtain ⟨x, hx, hkey, -⟩ := forall₂_mem hlowered he
      have hkey : DocKey.text k = x.1 := Option.some.inj hkey
      rw [hkey]
      exact h x hx rfl
    · rintro h x hx rfl
      obtain ⟨e, he, hkey, -⟩ := forall₂_mem hlowered.flip hx
      obtain ⟨k, v⟩ := e
      cases k with
      | int i => cases hkey
      | text k =>
        have hkey : DocKey.text k = x.1 := Option.some.inj hkey
        rw [← hkey]
        exact h rfl k v he
  have horder : (kind = .pairs → F.arrange ds = ds) ↔
    (kind = .pairs → InOrder env F f kt t es) := by
    refine forall_congr' fun _ => ⟨fun h ds' hds' => ?_, fun h => h ds hds⟩
    rw [hds] at hds'
    cases hds'
    exact h
  rw [hviews, horder]
  show _ ↔ (True → kt = .text true → _) ∧ (True → kind = .pairs → InOrder env F f kt t es) ∧
    KeptEntries env F everything f t es
  rw [keptEntries_iff, true_imp_iff, true_imp_iff]

end

/-! ### Objects and variants -/

section

variable {f : FieldMeta} {t : Ty} {v old : Val} {vs : List Val} {d : Doc}

theorem readsMember (henv : env.Regular) (hplain : ∀ w, sizeOf w ≤ sizeOf v → ReadsPlain L w) :
    ReadsMember L v :=
  fun _ _ _ _ hv hclear hold hd => reads_member henv hplain hv hclear hold hd

/-- An object, or what stands in its place. -/
theorem reads_struct (henv : env.Regular) (ha : Vetted env F) {st : Nat}
    (hvs : ∀ w, sizeOf w < sizeOf (Val.seq vs) → ReadsPlain L w)
    (hproper : Proper env f (.struct st) (.seq vs)) (hclear : Clear env F f (.struct st) (.seq vs))
    (hold : Shaped env (.struct st) old)
    (hd : lower env F.traits F.order f (.struct st) (.seq vs) = some d) :
    Reads L (fun n => decodeValue env r n f (.struct st)) d old
      (Kept env F everything f (.struct st) old (.seq vs)) (Like env (.struct st) (.seq vs)) := by
  refine .value (fun n => decodeStruct r n (memberDec env r n) (env.structs st) [])
    (fun n => by rw [decodeValue]) ?_
  have hmember : ∀ w ∈ vs, ∀ u, sizeOf u ≤ sizeOf w → ReadsPlain L u := fun w hw u hu =>
    hvs u (hu.trans_lt (Val.sizeOf_seq hw))
  rw [lower] at hd
  cases htransparent : (env.structs st).transparent with
  | true =>
    obtain ⟨g, hfields⟩ := List.length_eq_one_iff.1 (ha.transparent st htransparent)
    obtain ⟨os, rfl, hos⟩ := filled_of_shaped hold
    have hvlen := (properFields_iff.1 hproper).1
    rw [hfields] at hos hvlen
    obtain ⟨o, rfl⟩ := List.length_eq_one_iff.1 hos
    obtain ⟨w, rfl⟩ := List.length_eq_one_iff.1 hvlen
    have hlowered : lower env F.traits F.order g.info g.ty w = some d := by
      unfold lowerStruct at hd
      rw [if_pos htransparent, hfields] at hd
      exact hd
    have hw : Proper env g.info g.ty w := by
      have h := hproper
      rw [Proper, hfields] at h
      exact h.1
    have hwclear : Clear env F g.info g.ty w :=
      hclear.part (.member (i := 0) (by rw [hfields]; rfl) rfl (.inl htransparent))
    have ho : Shaped env g.ty o := hold.part (i := 0) rfl (by rw [hfields]; rfl)
    have hkept : Kept env F everything f (.struct st) (.seq [o]) (.seq [w]) ↔
        Untagged env F g.info g.ty w ∧ Kept env F everything g.info g.ty o w := by
      show (if (env.structs st).transparent then KeptInside env F everything
        (env.structs st).fields [o] [w] else _) ↔ _
      rw [if_pos htransparent, hfields]
      exact and_congr_left fun _ => true_imp_iff
    have hlike : ∀ w', Like env (.struct st) (.seq [w]) (.seq [w']) ↔ Like env g.ty w w' := by
      intro w'
      constructor
      · rintro ⟨_, ⟨⟩, h⟩
        rw [hfields] at h
        obtain ⟨_, _, ⟨⟩, h, -⟩ := h
        exact h
      · refine fun h => ⟨_, rfl, ?_⟩
        rw [hfields]
        exact ⟨w', [], rfl, h, rfl⟩
    rw [hkept]
    have hdecode : ∀ n, decodeStruct r n (memberDec env r n) (env.structs st) [] =
        inStep r (·.pushMember g.info.identifier) (onItem 0 (memberDec env r n g.info g.ty)) := by
      intro n
      unfold decodeStruct
      rw [htransparent, hfields]
    simp only [hdecode]
    obtain ⟨n₀, hread⟩ :=
      reads_inside henv (hmember w (List.mem_singleton_self w)) hw hwclear ho hlowered
    exact ⟨n₀, fun s u hat =>
      ((hread s u hat).focus (b := { reader := s, out := .seq [o] }) hlike).inStep⟩
  | false =>
    have hplain : ¬ (env.structs st).transparent = true := by
      rw [htransparent]; exact Bool.false_ne_true
    have hdecode : ∀ n, decodeStruct r n (memberDec env r n) (env.structs st) [] =
        decodeMembers r n (memberDec env r n) (env.structs st) [] := by
      intro n
      unfold decodeStruct
      rw [htransparent]
    unfold lowerStruct at hd
    rw [if_neg hplain] at hd
    obtain ⟨es, hes, hd⟩ := Option.bind_eq_some_iff.1 hd
    rw [if_pos rfl] at hd
    cases hd
    simp only [hdecode]
    have hmembers := fun (i : Nat) g w hg hw hwritten hflag =>
      hclear.part (.member (i := i) (h := g) (v := w) hg hw (.inr ⟨hwritten, hflag⟩))
    refine (reads_object ha hproper hold hmembers (fun w hw => readsMember henv (hmember w hw)) []
      hes
      (List.forall_mem_nil _) (.refl es) fun s u hat => L.members hat).congr ?_
    show _ ↔ if (env.structs st).transparent then _ else KeptFields env F everything
      (env.structs st).fields old.items vs
    rw [if_neg hplain]

/-- An entry is that of a member that is written. -/
theorem entry_key {s : StructDef} {es : List (DocKey × Doc)}
    (hes : ((written env F.order s (lowerFields env F.traits F.order s.fields vs)).map
      (DocMember.entry env F.traits s)).mapM id =
      some es) {x : DocKey × Doc} (hx : x ∈ es) :
    ∃ (i : Nat) (g : Field) (w : Val), s.fields[i]? = some g ∧ vs[i]? = some w ∧
      g.written env w = true ∧
      x.1 = keyOf F.traits s g := by
  have hentry : some x ∈ es.map some := List.mem_map_of_mem hx
  rw [← mapM_id_eq_some.1 hes] at hentry
  obtain ⟨m, hm, hentry⟩ := List.mem_map.1 hentry
  obtain ⟨i, -, hi⟩ := List.mem_filterMap.1 hm
  obtain ⟨hget, hwritten⟩ := Option.filter_eq_some_iff.1 hi
  obtain ⟨g, w, hg, hw, rfl⟩ := getElem?_lowerFields.1 hget
  obtain ⟨y, -, rfl⟩ := Option.map_eq_some_iff.1 hentry
  exact ⟨i, g, w, hg, hw, hwritten, rfl⟩

/-- The first pass reads the keys of an object if the members that are written have text keys. -/
theorem textKeys_iff (L : DocLaws env F r) {s : StructDef} {es : List (DocKey × Doc)}
    (hes : ((written env F.order s (lowerFields env F.traits F.order s.fields vs)).map
      (DocMember.entry env F.traits s)).mapM id =
      some es) : (∀ x ∈ es, TextKey F x) ↔ TextKeys env F s vs := by
  have heq := mapM_id_eq_some.1 hes
  constructor
  · intro h g w hmem hwritten
    obtain ⟨i, hi⟩ := List.getElem?_of_mem hmem
    rw [List.getElem?_zip_eq_some] at hi
    have hget : (lowerFields env F.traits F.order s.fields vs)[i]? =
      some ⟨g, w, lower env F.traits F.order g.info g.ty w⟩ :=
      getElem?_lowerFields.2 ⟨g, w, hi.1, hi.2, rfl⟩
    have horder : i ∈ F.order s :=
      (L.order_perm s).mem_iff.2 (List.mem_range.2 (List.getElem?_eq_some_iff.1 hi.1).1)
    have hin : (⟨g, w, lower env F.traits F.order g.info g.ty w⟩ : DocMember) ∈
        written env F.order s (lowerFields env F.traits F.order s.fields vs) := by
      refine List.mem_filterMap.2 ⟨i, horder, ?_⟩
      rw [hget, Option.filter_some]
      exact if_pos hwritten
    have hentry := List.mem_map_of_mem (f := DocMember.entry env F.traits s) hin
    rw [heq] at hentry
    obtain ⟨x, hx, hentry⟩ := List.mem_map.1 hentry
    obtain ⟨y, -, rfl⟩ := Option.map_eq_some_iff.1 hentry.symm
    exact h _ hx
  · intro h x hx
    obtain ⟨i, g, w, hg, hw, hwritten, hkey⟩ := entry_key hes hx
    unfold TextKey
    rw [hkey]
    exact h g w (List.mem_of_getElem? (List.getElem?_zip_eq_some.2 ⟨hg, hw⟩)) hwritten

section

variable {alts : List (Bytes × Ty)} {i : Nat} {name : Bytes} {st : StructDef}

theorem kept_internal {A : Aspect → Prop} (halt : alts[i]? = some (name, t))
    (htag : internallyTagged env t = some st) :
    Kept env F A f (.variant alts) old (.variant i (.seq vs)) ↔
      (A .discriminators → f.tagKey ≠ some []) ∧ (A .keys → TextKeys env F st vs) ∧
        KeptFields env F A st.fields (st.fields.map Field.initial) vs := by
  rw [Kept, halt]
  simp only [htag]

theorem kept_external {A : Aspect → Prop} (halt : alts[i]? = some (name, t))
    (htag : internallyTagged env t = none) :
    Kept env F A f (.variant alts) old (.variant i v) ↔ Kept env F A noField t (t.zero env) v := by
  rw [Kept, halt]
  simp only [htag]

end

/-- No member is taken for the discriminator. -/
theorem entry_ne (L : DocLaws env F r) (ha : Vetted env F) {st : Nat} {tagKey : Bytes}
    (hfree : (env.structs st).find tagKey = none) {es : List (DocKey × Doc)}
    (hes : ((written env F.order (env.structs st)
      (lowerFields env F.traits F.order (env.structs st).fields vs)).map
      (DocMember.entry env F.traits (env.structs st))).mapM id = some es) {x : DocKey × Doc}
        (hx : x ∈ es) :
    F.shown x.1 ≠ .text tagKey := by
  intro hshown
  obtain ⟨j, g, -, hg, -, -, hkey⟩ := entry_key hes hx
  rw [hkey, L.shown_keyOf] at hshown
  cases hint : F.traits.integerKey (env.structs st) g with
  | some k =>
    rw [hint] at hshown
    cases hshown
  | none =>
    rw [hint] at hshown
    cases hshown
    rw [ha.find hg] at hfree
    cases hfree

/-- An object that carries its discriminator, if that is not empty. -/
theorem reads_internal (henv : env.Regular) (ha : Vetted env F) {alts : List (Bytes × Ty)}
    {i st : Nat} {name tagKey : Bytes} (htagKey : f.tagKey = some tagKey)
    (htag : internallyTagged env (.struct st) = some (env.structs st))
    (halt : alts[i]? = some (name, .struct st))
    (hfind : findAlternative name alts 0 = some (i, .struct st))
    (hfree : (env.structs st).find tagKey = none) (hplain : (env.structs st).transparent = false)
    (hvs : ∀ w ∈ vs, ∀ u, sizeOf u ≤ sizeOf w → ReadsPlain L u)
    (hproper : Proper env noField (.struct st) (.seq vs))
    (hclear : Clear env F noField (.struct st) (.seq vs))
    (hd : lowerStruct env F.traits F.order (env.structs st) tagKey name
      (lowerFields env F.traits F.order (env.structs st).fields vs) = some d) :
    Reads L (fun n => decodeVariant env r n (decodeValue env r n noField)
      (decodeStruct r n (memberDec env r n)) f alts) d old
      (Kept env F everything f (.variant alts) old (.variant i (.seq vs)))
      (Like env (.variant alts) (.variant i (.seq vs))) := by
  rw [kept_internal halt htag, htagKey]
  unfold lowerStruct at hd
  rw [hplain, if_neg Bool.false_ne_true] at hd
  obtain ⟨es, hes, hd⟩ := Option.bind_eq_some_iff.1 hd
  have hothers := fun x (hx : x ∈ es) => entry_ne L ha hfree hes hx
  by_cases hne : tagKey = []
  · rw [if_pos hne] at hd
    cases hd
    exact reads_untagged htagKey (fun w u hat => L.members hat) hothers fun h =>
      h.1 trivial (congrArg some hne)
  · rw [if_neg hne] at hd
    cases hd
    have hperm := L.arrange_perm (tagEntry noField tagKey name :: es)
    have htext : (∀ x ∈ F.arrange (tagEntry noField tagKey name :: es), TextKey F x) ↔
      TextKeys env F (env.structs st) vs := by
      rw [← textKeys_iff L hes]
      constructor
      · exact fun h x hx => h x (hperm.mem_iff.2 (List.mem_cons_of_mem _ hx))
      · intro h x hx
        rcases List.mem_cons.1 (hperm.mem_iff.1 hx) with rfl | hx
        · exact ⟨tagKey, L.shown_text tagKey⟩
        · exact h x hx
    have hkept : (everything .discriminators → some tagKey ≠ some []) ∧
      (everything .keys → TextKeys env F (env.structs st) vs) ∧
        KeptFields env F everything (env.structs st).fields
          ((env.structs st).fields.map Field.initial) vs ↔
          TextKeys env F (env.structs st) vs ∧
            KeptFields env F everything (env.structs st).fields ((Ty.struct st).zero env).items
              vs :=
      (and_iff_right fun _ h => hne (Option.some.inj h)).trans
        (and_congr_left fun _ => true_imp_iff)
    rw [hkept, ← htext]
    refine reads_decodeVariant htagKey hfind (fun w u hat => L.map hat) (fun x hx hshown => ?_)
      (hperm.mem_iff.2 List.mem_cons_self) (lands_internal htag ?_ halt)
    · rcases List.mem_cons.1 (hperm.mem_iff.1 hx) with hx | hx
      · exact hx
      · exact absurd hshown (hothers x hx)
    · have hdecode : ∀ n, decodeStruct r n (memberDec env r n) (env.structs st) tagKey =
          decodeMembers r n (memberDec env r n) (env.structs st) tagKey := by
        intro n
        unfold decodeStruct
        rw [hplain]
      simp only [hdecode]
      have hmembers := fun (i : Nat) g w hg hw hwritten hflag =>
        hclear.part (.member (i := i) (h := g) (v := w) hg hw (.inr ⟨hwritten, hflag⟩))
      refine reads_object ha hproper (shaped_zero henv _) hmembers
        (fun w hw => readsMember henv (hvs w hw))
        [tagEntry noField tagKey name] hes ?_ hperm fun w u hat => L.map hat
      exact List.forall_mem_singleton.2 (.inl ⟨hne, hfree, rfl⟩)

/-- An alternative, with its discriminator. -/
theorem reads_variant (henv : env.Regular) (ha : Vetted env F) {alts : List (Bytes × Ty)} {i : Nat}
    (hvs : ∀ w, sizeOf w < sizeOf (Val.variant i v) → ReadsPlain L w)
    (hproper : Proper env f (.variant alts) (.variant i v))
    (hclear : Clear env F f (.variant alts) (.variant i v))
    (hd : lower env F.traits F.order f (.variant alts) (.variant i v) = some d) :
    Reads L (fun n => decodeValue env r n f (.variant alts)) d old
      (Kept env F everything f (.variant alts) old (.variant i v))
      (Like env (.variant alts) (.variant i v)) := by
  refine .value (fun n => decodeVariant env r n (decodeValue env r n noField)
    (decodeStruct r n (memberDec env r n)) f alts)
    (fun n => by rw [decodeValue]) ?_
  obtain ⟨htagged, ⟨name, t⟩, halt, hproper⟩ := hproper
  obtain ⟨tagKey, htagKey⟩ := Option.isSome_iff_exists.1 htagged
  obtain ⟨hfind, hmember, hpayload⟩ := hclear.discriminators .self _ _ halt htagKey
  replace hclear : Clear env F noField t v := hclear.part (.alternative halt)
  rw [lower] at hd
  simp only [halt, htagKey, Option.getD_some] at hd
  cases htag : internallyTagged env t with
  | some s =>
    obtain ⟨st, rfl, rfl, hplain⟩ := internallyTagged_eq_some htag
    cases v with
    | seq vs =>
      simp only [htag] at hd
      exact reads_internal henv ha htagKey htag halt hfind (hmember _ htag) hplain
        (fun w hw u hu => hvs u ((hu.trans_lt (Val.sizeOf_seq hw)).trans (Val.sizeOf_variant i _)))
          hproper hclear hd
    | _ => exact hproper.elim
  | none =>
    have hname := hpayload htag
    simp only [htag] at hd
    obtain ⟨x, hx, rfl⟩ := Option.map_eq_some_iff.1 hd
    have hperm := L.arrange_perm [tagEntry noField tagKey name, (.name variantValueKey, x)]
    rw [kept_external halt htag]
    have hread := hvs v (Val.sizeOf_variant i v) noField t x (t.zero env) hproper hclear
      (shaped_zero henv t) hx
    have hentries : ∀ y ∈ F.arrange [tagEntry noField tagKey name, (.name variantValueKey, x)],
        y = tagEntry noField tagKey name ∨ y = (.name variantValueKey, x) := fun y hy => by
      simpa using hperm.mem_iff.1 hy
    refine (reads_decodeVariant htagKey hfind (fun w u hat => L.map hat) (fun y hy hshown => ?_)
      (hperm.mem_iff.2 List.mem_cons_self) (lands_external htag hname hread halt)).congr
        (and_iff_right fun y hy => ?_)
    · rcases hentries y hy with rfl | rfl
      · exact rfl
      · rw [L.shown_name] at hshown
        exact absurd (EntryKey.text.inj hshown).symm hname
    · rcases hentries y hy with rfl | rfl
      · exact ⟨tagKey, L.shown_text tagKey⟩
      · exact ⟨variantValueKey, L.shown_name variantValueKey⟩

/-! ### Values of all types -/

/-- From the document of a value, construction comes back to the value exactly if it is kept. -/
theorem reads_value (henv : env.Regular) (ha : Vetted env F) (v : Val) : ReadsPlain L v := by
  induction v using Val.parts with
  | h v ih =>
    intro f t d old hproper hclear hold hd
    cases t with
    | bool =>
      cases v with
      | bool x =>
        cases hd
        exact reads_bool f x
      | _ => exact hproper.elim
    | char =>
      cases v with
      | char c =>
        cases hd
        exact reads_char f noField c
      | _ => exact hproper.elim
    | int k =>
      cases v with
      | int i =>
        cases hd
        exact reads_int f hproper
      | _ => exact hproper.elim
    | float =>
      cases v with
      | single x =>
        cases hd
        exact reads_float f x
      | _ => exact hproper.elim
    | double =>
      cases v with
      | real x =>
        cases hd
        exact reads_double f x
      | _ => exact hproper.elim
    | enum e =>
      cases v with
      | int i => exact reads_enum hproper hd
      | _ => exact hproper.elim
    | string view =>
      cases v with
      | text x =>
        cases hd
        exact reads_string f view x
      | _ => exact hproper.elim
    | byteRange rg =>
      cases v with
      | bytes x =>
        cases hd
        exact reads_byteRange f hproper
      | _ => exact hproper.elim
    | time c =>
      have hcodec : F.traits.timeCodec = true ∧ d = lowerTime env f c v := by
        cases v with
        | int i =>
          rw [lower] at hd
          split at hd <;> cases hd
          exact ⟨‹_›, rfl⟩
        | real x =>
          rw [lower] at hd
          split at hd <;> cases hd
          exact ⟨‹_›, rfl⟩
        | _ => exact hproper.elim
      obtain ⟨hcodec, rfl⟩ := hcodec
      exact reads_time hproper hcodec
    | optional t =>
      cases v with
      | some v =>
        refine .value (fun n => decodeOptional env r (decodeValue env r n f t) t)
          (fun n => by rw [decodeValue]) ?_
        refine reads_decodeOptional
          (ih v (Val.sizeOf_some v) f t d _ hproper (hclear.part .some) (shaped_zero henv t) hd) ?_
        have hnull : d.bare = .null ↔ Nullish env F f t v := by
          have hd' : lower env F.traits F.order f t v = some d := hd
          rw [(plain_lower hd').bare, Nullish, hd', Option.some_inj]
        rw [hnull]
        exact and_congr_left fun _ => true_imp_iff
      | null =>
        cases hd
        refine .value (fun n => decodeOptional env r (decodeValue env r n f t) t)
          (fun n => by rw [decodeValue]) ?_
        refine .of_ok (v := .null) (fun s u hat => ?_) (iff_of_true rfl trivial)
        exact decodeOptional_null _ _ rfl hat
      | _ => exact hproper.elim
    | variant alts =>
      cases v with
      | variant i v => exact reads_variant henv ha ih hproper hclear hd
      | _ => exact hproper.elim
    | map kind kt t =>
      cases v with
      | map es =>
        exact reads_entries henv (fun e he => ih e.2 (Val.sizeOf_map he)) hproper hclear hd
      | _ => exact hproper.elim
    | tuple ts =>
      cases v with
      | seq vs => exact reads_tuple (fun w hw => ih w (Val.sizeOf_seq hw)) hproper hclear hold hd
      | _ => exact hproper.elim
    | array k t =>
      cases v with
      | seq vs => exact reads_array (fun w hw => ih w (Val.sizeOf_seq hw)) hproper hclear hold hd
      | _ => exact hproper.elim
    | seq kind t =>
      cases v with
      | seq vs => exact reads_seq henv (fun w hw => ih w (Val.sizeOf_seq hw)) hproper hclear hd
      | _ => exact hproper.elim
    | struct st =>
      cases v with
      | seq vs => exact reads_struct henv ha ih hproper hclear hold hd
      | _ => exact hproper.elim

/-- From the document of a top-level value. -/
theorem reads_top (henv : env.Regular) (ha : Vetted env F) (hproper : Proper env noField t v)
    (hclear : Clear env F noField t v) (hold : Shaped env t old)
    (hd : lowerTop env F.traits F.order t v = some d) :
    Reads L (fun n => decodeFieldValue env r (decodeValue env r n noField) noField t) d old
      (KeptMember env F everything noField t old v) (Like env t v) :=
  reads_member henv (fun w _ => reads_value henv ha w) hproper hclear hold hd

end

end VCodec
