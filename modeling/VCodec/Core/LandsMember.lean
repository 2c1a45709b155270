import VCodec.Core.LandsMap

/-!
# Reading the document of a member

Tags stand before a member's value and a bulk form may stand in its place. The member of a
transparent struct is written without both, and read as any other member.
-/

namespace VCodec

open D

/-! ### Documents of values -/

theorem Doc.Plain.bare {d : Doc} (h : d.Plain) : d.bare = d := by
  cases d with
  | tag n d => exact h.elim
  | _ => rfl

theorem bare_tags (ts : List Nat) (d : Doc) : (ts.foldr Doc.tag d).bare = d.bare := by
  induction ts with
  | nil => rfl
  | cons n ts ih => exact ih

section

variable {env : Env} {tr : Traits} {order : StructDef → List Nat}

theorem plain_lowerEnum {f : FieldMeta} {e : EnumDef} {i : Int} {d : Doc}
    (h : lowerEnum tr f e i = some d) : d.Plain := by
  unfold lowerEnum at h
  split at h
  · split at h
    · cases h
    · cases h
      split <;> trivial
  · split at h
    · split at h
      · cases h
      · cases h
        trivial
    · cases h

theorem plain_lowerTime (f : FieldMeta) (d : Duration) (v : Val) : (lowerTime env f d v).Plain := by
  unfold lowerTime
  split
  · trivial
  · split
    · trivial
    · split <;> trivial

/-- A struct with an object of its own is a map. -/
theorem plain_lowerStruct {d : StructDef} {tagKey tagValue : Bytes} {ms : List DocMember} {x : Doc}
    (hd : d.transparent = false) (h : lowerStruct env tr order d tagKey tagValue ms = some x) :
    x.Plain := by
  unfold lowerStruct at h
  rw [hd, if_neg Bool.false_ne_true, Option.bind_eq_bind, Option.bind_eq_some_iff] at h
  obtain ⟨es, -, h⟩ := h
  split at h <;> cases h <;> trivial

/-- Tags and bulk forms belong to members. -/
theorem plain_lower {f : FieldMeta} {t : Ty} {v : Val} {d : Doc}
    (h : lower env tr order f t v = some d) : d.Plain := by
  induction v using Val.parts generalizing f t d with
  | h v ih =>
    have hbytes : ∀ {f' : FieldMeta} {b : Bytes} {T : Ty} {n : Option Nat} {ds : Option (List Doc)},
        (if tr.isBytes f T then some (.bytes f' b) else ds.map (.array f' n)) = some d →
          d.Plain := by
      intro f' b T n ds h
      split at h
      · cases h
        trivial
      · obtain ⟨ds, -, rfl⟩ := Option.map_eq_some_iff.1 h
        trivial
    unfold lower at h
    split at h
    · split at h
      · cases h
        exact plain_lowerTime _ _ _
      · cases h
    · split at h
      · cases h
        exact plain_lowerTime _ _ _
      · cases h
    · cases h
      trivial
    · cases h
      trivial
    · cases h
      split <;> trivial
    · cases h
      trivial
    · cases h
      trivial
    · exact plain_lowerEnum h
    · cases h
      trivial
    · exact ih _ (Val.sizeOf_some _) h
    · cases h
      trivial
    · split at h
      · cases h
      · split at h
        · rename_i hd
          obtain ⟨id, -, -, hplain⟩ := internallyTagged_eq_some hd
          exact plain_lowerStruct hplain h
        · cases h
        · obtain ⟨x, -, rfl⟩ := Option.map_eq_some_iff.1 h
          trivial
    · cases h
      trivial
    · obtain ⟨x, -, rfl⟩ := Option.map_eq_some_iff.1 h
      trivial
    · obtain ⟨x, -, rfl⟩ := Option.map_eq_some_iff.1 h
      trivial
    · exact hbytes h
    · exact hbytes h
    · rename_i id vs
      cases hd : (env.structs id).transparent with
      | false => exact plain_lowerStruct hd h
      | true =>
        unfold lowerStruct at h
        rw [hd, if_pos rfl] at h
        cases hfs : (env.structs id).fields with
        | nil =>
          rw [hfs] at h
          cases vs <;> cases h
        | cons g gs =>
          rw [hfs] at h
          cases vs with
          | nil => cases h
          | cons w ws =>
            rw [lowerFields] at h
            split at h
            · rename_i heq
              obtain rfl := (List.cons.inj heq).1
              exact ih w (Val.sizeOf_seq (.head _)) h
            · cases h
    · cases h

/-- A null stands for a member only if it is the member's document. -/
theorem bare_lowerFieldValue
    {F : Format} {f : FieldMeta} {t : Ty} {v : Val} {d : Doc} (hv : Proper env f t v)
    (h : lowerFieldValue env F.traits f (lower env F.traits F.order f t v) t v = some d) :
    d.bare = .null ↔ ¬ Bulk F f t v ∧ Nullish env F f t v := by
  have hplain : ∀ {t : Ty} {v : Val} {d : Doc}, (∀ u, t ≠ .optional u) →
      lowerFieldValue env F.traits f (lower env F.traits F.order f t v) t v = some d →
      (Bulk F f t v ↔ F.traits.bulkRange f t = true) →
        (d.bare = .null ↔ ¬ Bulk F f t v ∧ Nullish env F f t v) := by
    intro t v d ht h hbulk
    have hd :
      (if F.traits.bulkRange f t then some (.range t v) else lower env F.traits F.order f t v).map
        ((F.traits.expectedTags env f t).foldr .tag) = some d := by
      cases t <;> first | exact absurd rfl (ht _) | exact h
    obtain ⟨x, hx, rfl⟩ := Option.map_eq_some_iff.1 hd
    rw [bare_tags, hbulk]
    split at hx
    · rename_i hrange
      cases hx
      exact iff_of_false (fun h => nomatch h) fun h => h.1 hrange
    · rename_i hrange
      rw [(plain_lower hx).bare, and_iff_right hrange]
      unfold Nullish
      rw [hx, Option.some_inj]
  induction v using Val.parts generalizing t d with
  | h v ih =>
    cases t with
    | optional t =>
      cases v with
      | some v => exact ih v (Val.sizeOf_some v) hv h
      | null =>
        cases h
        exact iff_of_true rfl ⟨id, rfl⟩
      | _ => exact hv.elim
    | _ => exact hplain (fun _ h => nomatch h) h Iff.rfl

end

/-! ### Tags and bulk forms -/

variable {σ S M : Type} {env : Env} {F : Format} {r : Reader σ S M} {L : DocLaws env F r}

/-- At the document of every value of the size, construction is followed. -/
def ReadsPlain (L : DocLaws env F r) (v : Val) : Prop :=
  ∀ f t d old, Proper env f t v → Clear env F f t v → Shaped env t old →
    lower env F.traits F.order f t v = some d →
    Reads L (fun n => decodeValue env r n f t) d old (Kept env F everything f t old v)
      (Like env t v)

section

variable {f : FieldMeta} {t : Ty} {old v : Val} {d : Doc} {p : Prop} {Q : Val → Prop}
    {m : Nat → D σ Unit}

theorem expectTags_at {ts : List Nat} {s u : σ} (hat : L.At (ts.foldr Doc.tag d) s u) :
    ∃ w, r.expectTags ts s = .ok () w ∧ L.At d w u := by
  induction ts generalizing s with
  | nil => exact ⟨s, L.tags_nil s, hat⟩
  | cons n ts ih =>
    obtain ⟨w, hw, hrest⟩ := L.tags_cons hat
    obtain ⟨w', hw', hd⟩ := ih hw
    exact ⟨w', (hrest ts).trans hw', hd⟩

theorem decodeTags_eq_ok {ts : List Nat} {b b' : Build σ} :
    decodeTags r f ts b = .ok () b' ↔ if ts = [] then b = b' else
      ∃ w, r.expectTags ts b.reader = .ok () w ∧ b' = { b with reader := w } := by
  unfold decodeTags
  split
  · rw [pure_eq_ok, and_iff_right rfl]
  · rw [mapError_eq_ok, call_eq_ok]

/-- The tags that are written are the tags that are expected. -/
theorem Reads.tags (ts : List Nat) (h : Reads L m d old p Q) :
    Reads L (fun n => do
      decodeTags r f ts
      m n) (ts.foldr Doc.tag d) old p Q := by
  obtain ⟨n₀, h⟩ := h
  refine ⟨n₀, fun s u hat => ?_⟩
  obtain ⟨w, hw, hd⟩ := expectTags_at hat
  have htags : decodeTags r f ts { reader := s, out := old } =
    .ok () { reader := w, out := old } := by
    rw [decodeTags_eq_ok]
    split
    · rename_i hnil
      subst hnil
      rw [L.tags_nil] at hw
      cases hw
      rfl
    · exact ⟨w, hw, rfl⟩
  exact .of_eq _ (fun n => Run.bind_of_ok htags _) (h w u hd)

/-- A document that is no bulk form is read as the value that it is. -/
theorem Reads.noBulk (hd : d.Plain) (h : Reads L m d old p Q) :
    Reads L (fun n => decodeBulk r (m n) f t) d old p Q := by
  obtain ⟨n₀, h⟩ := h
  refine ⟨n₀, fun s u hat => ?_⟩
  unfold decodeBulk
  split
  · obtain ⟨w, hrange, hsame⟩ := L.no_range hat hd t old
    exact .of_eq _ (fun n => Run.bind_of_ok hrange _) (h w u (L.at_same hsame hat))
  · exact h s u hat

theorem Reads.bulk (hbulk : F.traits.bulkRange f t = true) (hv : Proper env f t v)
    (hold : Shaped env t old) :
    Reads L (fun n => decodeBulk r (m n) f t) (.range t v) old True (Like env t v) := by
  refine .of_ok (fun s u hat => ?_) (iff_of_true (like_refl hv) trivial)
  obtain ⟨w, hrange, hsame⟩ := L.range hat hbulk hv old hold
  refine ⟨w, fun n => ?_, hsame⟩
  unfold decodeBulk
  rw [L.traits, if_pos (.inl hbulk), Run.bind_of_ok hrange]
  rfl

end

/-! ### Members -/

theorem decodeFieldValue_present
    {f : FieldMeta} {t : Ty} (ht : ∀ u, t ≠ .optional u) (dec : Ty → D σ Unit) :
    decodeFieldValue env r dec f t = (do
      decodeTags r f (r.traits.expectedTags env f t)
      decodeBulk r (dec t) f t) := by
  cases t <;> first | exact absurd rfl (ht _) | rfl

theorem lowerFieldValue_present
    {tr : Traits} {f : FieldMeta} {t : Ty} (ht : ∀ u, t ≠ .optional u) (d : Option Doc) (v : Val) :
    lowerFieldValue env tr f d t v = (if tr.bulkRange f t then some (.range t v) else d).map
      ((tr.expectedTags env f t).foldr .tag) := by
  cases t <;> first | exact absurd rfl (ht _) | rfl

theorem bulk_present {f : FieldMeta} {t : Ty} (ht : ∀ u, t ≠ .optional u) (v : Val) :
    Bulk F f t v ↔ F.traits.bulkRange f t = true := by
  cases t <;> first | exact absurd rfl (ht _) | exact Iff.rfl

theorem untagged_present {f : FieldMeta} {t : Ty} (ht : ∀ u, t ≠ .optional u) (v : Val) :
    Untagged env F f t v ↔ F.traits.expectedTags env f t = [] := by
  cases t <;> first | exact absurd rfl (ht _) | exact Iff.rfl

/-- The value of a member is read as it is written. -/
theorem reads_member (henv : env.Regular) {f : FieldMeta} {t : Ty} {old v : Val} {d : Doc}
    (hplain : ∀ w, sizeOf w ≤ sizeOf v → ReadsPlain L w) (hv : Proper env f t v)
    (hclear : Clear env F f t v) (hold : Shaped env t old)
    (hd : lowerFieldValue env F.traits f (lower env F.traits F.order f t v) t v = some d) :
    Reads L (fun n => decodeFieldValue env r (decodeValue env r n f) f t) d old
      (KeptMember env F everything f t old v) (Like env t v) := by
  induction v using Val.parts generalizing t old d with
  | h v ih =>
    have hpresent : (∀ u, t ≠ .optional u) →
      Reads L (fun n => decodeFieldValue env r (decodeValue env r n f) f t) d old
        (KeptMember env F everything f t old v) (Like env t v) := by
      intro ht
      simp only [decodeFieldValue_present ht, L.traits]
      rw [lowerFieldValue_present ht] at hd
      obtain ⟨x, hx, rfl⟩ := Option.map_eq_some_iff.1 hd
      refine .tags _ ?_
      unfold KeptMember
      rw [bulk_present ht]
      split at hx
      · rename_i hbulk
        cases hx
        simp only [hbulk, true_or]
        exact .bulk hbulk hv hold
      · rename_i hbulk
        have hread := (hplain v le_rfl) f t x old hv hclear hold hx
        simp only [hbulk, Bool.false_eq_true, false_or]
        exact hread.noBulk (plain_lower hx)
    cases t with
    | optional t =>
      cases v with
      | some v =>
        have hsize := Val.sizeOf_some v
        have hinner :=
          ih v hsize (fun w hw => hplain w (hw.trans hsize.le)) hv (hclear.part .some)
          (shaped_zero henv t) hd
        refine reads_decodeOptional hinner ?_
        rw [bare_lowerFieldValue (v := v) hv hd]
        show Bulk F f t v ∨ (True → ¬ Nullish env F f t v) ∧
          Kept env F everything f t (t.zero env) v ↔ _
        unfold KeptMember
        tauto
      | null =>
        cases hd
        refine .of_ok (v := .null) (fun s u hat => ?_) (iff_of_true rfl (.inr trivial))
        exact decodeOptional_null _ _ rfl hat
      | _ => exact hv.elim
    | _ => exact hpresent fun _ h => nomatch h

/-- The member of a transparent struct is written without its tags. -/
theorem reads_inside (henv : env.Regular) {f : FieldMeta} {t : Ty} {old v : Val} {d : Doc}
    (hplain : ∀ w, sizeOf w ≤ sizeOf v → ReadsPlain L w) (hv : Proper env f t v)
    (hclear : Clear env F f t v) (hold : Shaped env t old)
    (hd : lower env F.traits F.order f t v = some d) :
    Reads L (fun n => decodeFieldValue env r (decodeValue env r n f) f t) d old
      (Untagged env F f t v ∧ Kept env F everything f t old v) (Like env t v) := by
  induction v using Val.parts generalizing t old d with
  | h v ih =>
    have hpresent : (∀ u, t ≠ .optional u) →
      Reads L (fun n => decodeFieldValue env r (decodeValue env r n f) f t) d old
        (Untagged env F f t v ∧ Kept env F everything f t old v) (Like env t v) := by
      intro ht
      have hread := ((hplain v le_rfl) f t d old hv hclear hold hd).noBulk (f := f) (t := t)
        (plain_lower hd)
      simp only [decodeFieldValue_present ht, L.traits]
      rw [untagged_present ht]
      by_cases htags : F.traits.expectedTags env f t = []
      · simp only [htags, true_and]
        exact hread.tags []
      · obtain ⟨n₀, hread⟩ := hread
        refine ⟨n₀, fun s u hat => .of_ne (fun n b' hrun => ?_) fun h => htags h.1⟩
        obtain ⟨_, _, hrun, -⟩ := Run.bind_eq_ok.1 hrun
        rw [decodeTags_eq_ok, if_neg htags] at hrun
        obtain ⟨w, hw, -⟩ := hrun
        exact L.tags_none hat (plain_lower hd) htags w hw
    cases t with
    | optional t =>
      cases v with
      | some v =>
        have hsize := Val.sizeOf_some v
        have hinner :=
          ih v hsize (fun w hw => hplain w (hw.trans hsize.le)) hv (hclear.part .some)
          (shaped_zero henv t) hd
        refine reads_decodeOptional hinner ?_
        rw [(plain_lower hd).bare]
        have hnull : d = .null ↔ Nullish env F f t v := by
          unfold Nullish
          have hd' : lower env F.traits F.order f t v = some d := hd
          rw [hd', Option.some_inj]
        rw [hnull]
        show Untagged env F f t v ∧
          ((True → ¬ Nullish env F f t v) ∧ Kept env F everything f t (t.zero env) v) ↔ _
        tauto
      | null =>
        cases hd
        refine .of_ok (v := .null) (fun s u hat => ?_) (iff_of_true rfl ⟨trivial, trivial⟩)
        exact decodeOptional_null _ _ rfl hat
      | _ => exact hv.elim
    | _ => exact hpresent fun _ h => nomatch h

end VCodec
