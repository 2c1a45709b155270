import VCodec.Core.Accepted

/-!
# Schemas of accepted classes

What the walk does at a member of an accepted class does not depend on how deep it stands: a class
that is sound where another one visits it is sound by itself. So the classes that declare the
members of an accepted class have tables of their own, and the encoder and the decoder get a schema
of every accepted class, in which a name leads to one member.
-/

namespace VCodec.Schema

/-! ### Treatment without a place -/

/-- What becomes of a member, by its annotations alone. -/
def declared (c : ClassInfo) (m : DataMember) : Treatment :=
  match m.identifier with
  | none => .leaveOut
  | some identifier =>
    let anns := memberAnnotations c identifier m
    if hasMark .skip anns then .leaveOut else if hasMark .flatten anns then .splice else .field
      identifier anns

theorem treatment_of_sound
    {c : ClassInfo} {depth : Nat} {stack : List Nat} {m : DataMember} {type : Option ClassInfo}
    (h : SoundMember c depth stack m type) : treatment c depth stack m type = declared c m := by
  obtain ⟨identifier, hid, h⟩ := h
  unfold treatment declared
  rw [hid]
  simp only
  by_cases hskip : hasMark .skip (memberAnnotations c identifier m) = true
  · rw [if_pos hskip, if_pos hskip]
  · obtain ⟨hmany, h⟩ := or_iff_right hskip |>.1 h
    rw [if_neg hskip, if_neg hskip, if_neg (Nat.not_lt.2 hmany)]
    by_cases hflatten : hasMark .flatten (memberAnnotations c identifier m) = true
    · rw [if_pos hflatten] at h
      obtain ⟨mt, rfl, hoptional, hself, hstack, hdepth⟩ := h
      rw [if_pos hflatten, if_pos hflatten]
      simp only
      rw [if_neg (by rw [hoptional]; exact Bool.false_ne_true), if_neg (not_or.2 ⟨hself, hstack⟩),
        if_neg (by omega)]
    · rw [if_neg hflatten, if_neg hflatten]

theorem SoundMember.mono
    {c : ClassInfo} {depth depth' : Nat} {stack stack' : List Nat} {m : DataMember}
    {type : Option ClassInfo} (hdepth : depth ≤ depth') (hstack : ∀ id ∈ stack, id ∈ stack')
    (h : SoundMember c depth' stack' m type) :
    SoundMember c depth stack m type := by
  obtain ⟨identifier, hid, h⟩ := h
  refine ⟨identifier, hid, h.imp_right fun h => ⟨h.1, ?_⟩⟩
  have hplace := h.2
  by_cases hflatten : hasMark .flatten (memberAnnotations c identifier m) = true
  · rw [if_pos hflatten] at hplace ⊢
    obtain ⟨mt, htype, hoptional, hself, hnot, hroom⟩ := hplace
    exact ⟨mt, htype, hoptional, hself, fun hin => hnot (hstack _ hin), by omega⟩
  · rw [if_neg hflatten] at hplace ⊢
    omega

/-! ### Shallower places -/

/-- One class at two places, with less before it at the first. -/
structure Place.Shallower (p p' : Place) : Prop where
  cls : p.cls = p'.cls
  depth : p.path.length ≤ p'.path.length
  stack : ∀ id ∈ p.stack, id ∈ p'.stack

theorem start_shallower (p : Place) : (start p.cls).Shallower p :=
  ⟨rfl, Nat.zero_le _, fun _ h => absurd h List.not_mem_nil⟩

theorem Place.Shallower.sound {p p' : Place} (h : p.Shallower p') (hs : p'.Sound) : p.Sound := by
  obtain ⟨c, path, stack, vf, vb⟩ := p
  obtain ⟨c', path', stack', vf', vb'⟩ := p'
  obtain ⟨hcls, hdepth, hstack⟩ := h
  have heq : c = c' := hcls
  subst heq
  exact ⟨hs.described, hs.bases, fun x hx => (hs.members x hx).mono hdepth hstack⟩

/-- The walk from the second place goes where the walk from the first goes. -/
theorem Place.Shallower.enters
    {p p' q : Place} (h : p.Shallower p') (hs : p'.Sound) (he : p.Enters q) :
    ∃ q', p'.Enters q' ∧ q.Shallower q' := by
  have hsound := h.sound hs
  obtain ⟨c, path, stack, vf, vb⟩ := p
  obtain ⟨c', path', stack', vf', vb'⟩ := p'
  obtain ⟨hcls, hdepth, hstack⟩ := h
  have heq : c = c' := hcls
  subst heq
  have hlen : ∀ a : Hop, (path ++ [a]).length ≤ (path' ++ [a]).length := fun a => by
    rw [List.length_append, List.length_append]
    exact Nat.add_le_add_right hdepth _
  cases he with
  | base hb => exact ⟨_, .base hb, rfl, hlen _, hstack⟩
  | splice hm ht =>
    have hmem := List.mem_of_getElem? hm
    have htreat := (treatment_of_sound (hsound.members _ hmem)).symm.trans ht
    refine ⟨_, .splice hm ((treatment_of_sound (hs.members _ hmem)).trans htreat), rfl, hlen _,
      fun id hid => ?_⟩
    rcases List.mem_append.1 hid with hid | hid
    · exact List.mem_append_left _ (hstack id hid)
    · exact List.mem_append_right _ hid

theorem Place.Shallower.visits
    {p p' q : Place} (h : p.Shallower p') (hs : ∀ r, Visits p' r → r.Sound) (hv : Visits p q) :
    ∃ q', Visits p' q' ∧ q.Shallower q' := by
  induction hv with
  | refl => exact ⟨p', .refl, h⟩
  | tail _ henters ih =>
    obtain ⟨r', hr', hshallow⟩ := ih
    obtain ⟨q', hq', hshallow'⟩ := hshallow.enters (hs r' hr') henters
    exact ⟨q', hr'.tail hq', hshallow'⟩

/-- A class that the walk visits in a sound class is sound by itself. -/
theorem Class.Sound.visited {c : Class} (h : c.Sound) {q : Place} (hv : Visits (start c) q) :
    q.cls.Sound := by
  intro r hr
  obtain ⟨r', hr', hshallow⟩ := (start_shallower q).visits (fun r' hr' => h r' (hv.trans hr')) hr
  exact hshallow.sound (h r' (hv.trans hr'))

/-! ### Schemas -/

theorem exists_ownerOf {c : Class} (h : c.Sound) : ∃ o, ownerOf c = some o := by
  obtain ⟨st, hst⟩ := exists_runBuild fun e he => (Class.sound_iff.1 h e he).2
  exact ⟨_, by rw [ownerOf, hst]; rfl⟩

theorem exists_field {c : Class} (h : c.Sound) {f : FieldMeta} (hf : f ∈ fieldsOf c) :
    ∃ x, f.field = some x := by
  obtain ⟨n, hn⟩ := List.mem_iff_getElem?.1 hf
  obtain ⟨q, i, m, type, identifier, anns, hvisits, -, -, hfield⟩ := exists_of_fieldsOf hn
  have howner : f.owner = q.cls := by rw [hfield]; rfl
  obtain ⟨o, ho⟩ := exists_ownerOf (h.visited hvisits)
  exact ⟨_, by rw [FieldMeta.field, howner, ho]; rfl⟩

theorem names_of_field {f : FieldMeta} {x : Field} (h : f.field = some x) : x.names = f.names := by
  obtain ⟨o, -, hx⟩ := Option.bind_eq_some_iff.1 h
  cases hx
  rfl

theorem exists_mapM {fs : List FieldMeta} (h : ∀ f ∈ fs, ∃ x, f.field = some x) :
    ∃ xs, fs.mapM FieldMeta.field = some xs := by
  induction fs with
  | nil => exact ⟨[], rfl⟩
  | cons f fs ih =>
    obtain ⟨x, hx⟩ := h f List.mem_cons_self
    obtain ⟨xs, hxs⟩ := ih fun g hg => h g (List.mem_cons_of_mem _ hg)
    exact ⟨x :: xs, by rw [List.mapM_cons, hx, hxs]; rfl⟩

theorem names_of_mapM {fs : List FieldMeta} {xs : List Field}
    (h : fs.mapM FieldMeta.field = some xs) :
    xs.map Field.names = fs.map FieldMeta.names := by
  induction fs generalizing xs with
  | nil =>
    cases h
    rfl
  | cons f fs ih =>
    rw [List.mapM_cons] at h
    obtain ⟨x, hx, h⟩ := Option.bind_eq_some_iff.1 h
    obtain ⟨ys, hys, h⟩ := Option.bind_eq_some_iff.1 h
    cases h
    rw [List.map_cons, List.map_cons, names_of_field hx, ih hys]

/-- What the schema of a class says, if there is one. -/
structure Described (c : Class) (d : StructDef) : Prop where
  accepted : c.Accepted
  fields : (fieldsOf c).mapM FieldMeta.field = some d.fields
  transparent : d.transparent = hasMark .transparent (typeAnnotations c.info)

theorem ok_iff {c : Class} {ti : TypeInfo} (h : buildTypeInfo c = some ti) :
    ti.ok = true ↔ c.Accepted := by
  refine Iff.trans ⟨fun hok => ⟨ti, h, hok⟩, ?_⟩ (buildTypeInfo_ok_iff c)
  rintro ⟨ti', h', hok⟩
  cases h.symm.trans h'
  exact hok

theorem described_of_structDef {c : Class} {d : StructDef} (h : structDef c = some d) :
    Described c d := by
  obtain ⟨ti, hti, h⟩ := Option.bind_eq_some_iff.1 h
  obtain ⟨st, hst, h⟩ := Option.bind_eq_some_iff.1 h
  obtain ⟨xs, hxs, h⟩ := Option.bind_eq_some_iff.1 h
  obtain ⟨hfields, -, -⟩ := runBuild_spec hst
  have htransparent : ti.transparent = hasMark .transparent (typeAnnotations c.info) := by
    obtain ⟨st', -, hti⟩ := Option.bind_eq_some_iff.1 hti
    cases hti
    rfl
  by_cases hok : ti.ok = true
  · simp only [hok, if_true] at h
    cases h
    exact ⟨(ok_iff hti).1 hok, hfields ▸ hxs, htransparent⟩
  · simp only [hok] at h
    cases h

theorem exists_structDef {c : Class} (h : c.Accepted) : ∃ d, structDef c = some d := by
  obtain ⟨ti, hti, hok⟩ := (buildTypeInfo_ok_iff c).2 h
  obtain ⟨st, hst, -⟩ := Option.bind_eq_some_iff.1 hti
  obtain ⟨hfields, -, -⟩ := runBuild_spec hst
  obtain ⟨xs, hxs⟩ : ∃ xs, st.fields.mapM FieldMeta.field = some xs :=
    exists_mapM fun f hf => exists_field h.sound (hfields ▸ hf)
  unfold structDef
  simp only [hti, hst, hxs, hok, Option.bind_eq_bind, Option.bind_some, if_true]
  exact ⟨_, rfl⟩

theorem Described.names {c : Class} {d : StructDef} (h : Described c d) :
    d.fields.map Field.names = (fieldsOf c).map FieldMeta.names :=
  names_of_mapM h.fields

/-- The codec gets a schema of exactly the accepted classes. Its members are the fields of the
class, each with the data the class gives it, in their order; a name leads to one member, and a
transparent struct has one. -/
theorem structDef_serves (c : Class) :
    ((∃ d, structDef c = some d) ↔ c.Accepted) ∧
      ∀ d, structDef c = some d → (fieldsOf c).mapM FieldMeta.field = some d.fields ∧
        (d.fields.flatMap Field.names).Nodup ∧ (d.transparent = true → d.fields.length = 1) := by
  refine ⟨⟨fun ⟨d, hd⟩ => (described_of_structDef hd).accepted, exists_structDef⟩, fun d hd => ?_⟩
  have h := described_of_structDef hd
  refine ⟨h.fields, ?_, fun ht => ?_⟩
  · have hnames := h.accepted.names
    rw [List.flatMap_def] at hnames ⊢
    rw [h.names]
    exact hnames
  · have hlen := congrArg List.length h.names
    rw [List.length_map, List.length_map] at hlen
    rw [hlen]
    exact h.accepted.transparent (h.transparent.symm.trans ht)

/-! ### Alternatives -/

theorem findAlternative_of_not_mem {name : Bytes} {alts : List (Bytes × Ty)}
    (h : name ∉ alts.map Prod.fst) (n : Nat) : findAlternative name alts n = none := by
  induction alts generalizing n with
  | nil => rfl
  | cons alt alts ih =>
    rw [List.map_cons, List.mem_cons, not_or] at h
    rw [findAlternative, ih h.2]
    exact if_neg (Ne.symm h.1)

/-- Of alternatives with distinct names each is found by its own. -/
theorem findAlternative_of_nodup {alts : List (Bytes × Ty)} (h : (alts.map Prod.fst).Nodup)
    {i : Nat} {alt : Bytes × Ty} (halt : alts[i]? = some alt) (n : Nat) :
    findAlternative alt.1 alts n = some (n + i, alt.2) := by
  induction alts generalizing i n with
  | nil => cases halt
  | cons a alts ih =>
    rw [List.map_cons, List.nodup_cons] at h
    cases i with
    | zero =>
      cases halt
      rw [findAlternative, findAlternative_of_not_mem h.1]
      exact if_pos rfl
    | succ i =>
      rw [findAlternative, ih h.2 halt (n + 1), Nat.add_right_comm]
      rfl

/-- Unannotated types of distinct identifiers are told apart by their names. -/
theorem findAlternative_alternatives {as : List AlternativeDecl}
    (hplain : ∀ a ∈ as, findAnn Ann.name? (a.annotations ++ a.described) = none)
    (hids : (as.map fun a => a.identifier.getD a.qualified).Nodup) {i : Nat} {a : AlternativeDecl}
    (ha : as[i]? = some a) :
    findAlternative (alternativeName a) (alternatives as) 0 = some (i, a.ty) := by
  have hnames : (alternatives as).map Prod.fst = as.map fun a => a.identifier.getD a.qualified := by
    rw [alternatives, List.map_map]
    exact List.map_congr_left fun a ha => by rw [Function.comp_apply, alternativeName, hplain a ha]
  have hat : (alternatives as)[i]? = some (alternativeName a, a.ty) := by
    rw [alternatives, List.getElem?_map, ha]
    rfl
  have hfound := findAlternative_of_nodup (hnames ▸ hids) hat 0
  rwa [Nat.zero_add] at hfound

end VCodec.Schema
