import VCodec.Core.Fields

/-!
# Accepted classes

When a class has a schema without a complaint, and what its table of fields then is. A complaint is
made exactly where a visited class is not sound by itself, or where two fields share a name.
-/

namespace VCodec.Schema

/-! ### What a walk leaves -/

def Event.complaint? : Event → Option Bytes
  | .complaint msg => some msg
  | .field _ _ _ _ _ _ _ _ => none

/-- The path of the field has a place for its last step. -/
def Event.Fits : Event → Prop
  | .complaint _ => True
  | .field _ path _ _ _ _ _ _ => path.length < maxMemberDepth

/-- The fields that are met, with their positions. -/
def numbered : Nat → List Event → List FieldMeta
  | _, [] => []
  | n, .complaint _ :: es => numbered n es
  | n, .field owner path viaFlatten viaBase i m identifier anns :: es =>
    fieldMeta owner path viaFlatten viaBase i m identifier anns n :: numbered (n + 1) es

/-- A walk without blank complaints that ends, and what it leaves. -/
structure Walked (es : List Event) (st st' : BuildState) : Prop where
  fits : ∀ e ∈ es, e.Fits
  fields : st'.fields = st.fields ++ numbered st.fields.length es
  clean : st'.error = [] ↔ st.error = [] ∧ ∀ e ∈ es, e.complaint? = none

theorem fail_error {msg : Bytes} (hmsg : msg ≠ []) (st : BuildState) :
    (st.fail msg).error ≠ [] := by
  unfold BuildState.fail
  split
  · exact hmsg
  · assumption

theorem fail_fields (msg : Bytes) (st : BuildState) : (st.fail msg).fields = st.fields := by
  unfold BuildState.fail
  split <;> rfl

theorem walked {es : List Event} (hmsg : ∀ e ∈ es, e.complaint? ≠ some []) {st st' : BuildState}
    (h : es.foldlM step st = some st') :
    Walked es st st' := by
  induction es generalizing st with
  | nil =>
    cases h
    exact ⟨fun _ h => absurd h List.not_mem_nil, (List.append_nil _).symm,
      ⟨fun h => ⟨h, fun _ h => absurd h List.not_mem_nil⟩, And.left⟩⟩
  | cons e es ih =>
    rw [List.foldlM_cons] at h
    obtain ⟨st₁, hstep, hrest⟩ := Option.bind_eq_some_iff.1 h
    have hw := ih (fun e he => hmsg e (List.mem_cons_of_mem _ he)) hrest
    cases e with
    | complaint msg =>
      cases hstep
      have hne : msg ≠ [] := fun heq => hmsg (.complaint msg) List.mem_cons_self (congrArg some heq)
      refine ⟨List.forall_mem_cons.2 ⟨trivial, hw.fits⟩, ?_,
        iff_of_false (fun h => fail_error hne st (hw.clean.1 h).1) fun h => ?_⟩
      · rw [hw.fields, fail_fields]
        rfl
      · cases h.2 (.complaint msg) List.mem_cons_self
    | field owner path vf vb i m identifier anns =>
      have hadd : addField owner path vf vb i m identifier anns st = some st₁ := hstep
      unfold addField at hadd
      split at hadd
      · cases hadd
      · rename_i hroom
        cases hadd
        refine ⟨List.forall_mem_cons.2 ⟨Nat.not_le.1 hroom, hw.fits⟩, ?_,
          hw.clean.trans (and_congr_right fun _ => ?_)⟩
        · rw [hw.fields, List.length_append, List.append_assoc]
          rfl
        · rw [List.forall_mem_cons]
          exact (and_iff_right rfl).symm

theorem exists_walk {es : List Event} (hfits : ∀ e ∈ es, e.Fits) (st : BuildState) :
    ∃ st', es.foldlM step st = some st' := by
  induction es generalizing st with
  | nil => exact ⟨st, rfl⟩
  | cons e es ih =>
    obtain ⟨he, hes⟩ := List.forall_mem_cons.1 hfits
    cases e with
    | complaint msg => exact ih hes _
    | field owner path vf vb i m identifier anns =>
      rw [List.foldlM_cons]
      have hadd : step st (.field owner path vf vb i m identifier anns) = some _ :=
        if_neg (Nat.not_le.2 he)
      rw [hadd]
      exact ih hes _

theorem numbered_map_path (n : Nat) (es : List Event) :
    (numbered n es).map (·.path) = es.filterMap Event.path? := by
  induction es generalizing n with
  | nil => rfl
  | cons e es ih =>
    cases e with
    | complaint msg => exact ih n
    | field owner path vf vb i m identifier anns => exact congrArg (_ :: ·) (ih (n + 1))

/-- The fields at their positions. -/
theorem numbered_getElem?
    {n j : Nat} {es : List Event} {f : FieldMeta} (h : (numbered n es)[j]? = some f) :
    ∃ owner path vf vb i m identifier anns, Event.field owner path vf vb i m identifier anns ∈ es ∧
      f = fieldMeta owner path vf vb i m identifier anns (n + j) := by
  induction es generalizing n j with
  | nil => cases h
  | cons e es ih =>
    cases e with
    | complaint msg =>
      obtain ⟨o, p, vf, vb, i, m, ident, anns, hmem, hf⟩ := ih h
      exact ⟨o, p, vf, vb, i, m, ident, anns, List.mem_cons_of_mem _ hmem, hf⟩
    | field owner path vf vb i m identifier anns =>
      cases j with
      | zero =>
        cases h
        exact ⟨owner, path, vf, vb, i, m, identifier, anns, List.mem_cons_self, rfl⟩
      | succ j =>
        obtain ⟨o, p, vf, vb, i, m, ident, anns, hmem, hf⟩ := ih (n := n + 1) (j := j) h
        exact ⟨o, p, vf, vb, i, m, ident, anns, List.mem_cons_of_mem _ hmem,
          by rw [hf, Nat.add_right_comm, Nat.add_assoc]⟩

theorem numbered_of_mem {n : Nat} {es : List Event} {owner : Class} {path : List Hop} {vf vb : Bool}
    {i : Nat} {m : DataMember} {identifier : Bytes} {anns : List Ann}
    (h : Event.field owner path vf vb i m identifier anns ∈ es) :
    ∃ j, (numbered n es)[j]? = some (fieldMeta owner path vf vb i m identifier anns (n + j)) := by
  induction es generalizing n with
  | nil => cases h
  | cons e es ih =>
    rcases List.mem_cons.1 h with rfl | hmem
    · exact ⟨0, rfl⟩
    · cases e with
      | complaint msg => exact ih hmem
      | field owner' path' vf' vb' i' m' identifier' anns' =>
        obtain ⟨j, hj⟩ := ih (n := n + 1) hmem
        exact ⟨j + 1, by rw [Nat.add_right_comm, Nat.add_assoc] at hj; exact hj⟩

/-! ### Sound classes -/

theorem fixedString_ne_nil {n : Nat} {parts : List Bytes} {part : Bytes} (hn : n ≠ 0)
    (hpart : part ∈ parts) (hne : part ≠ []) :
    fixedString n parts ≠ [] := by
  intro h
  rw [fixedString, List.take_eq_nil_iff] at h
  rcases h with h | h
  · exact hn h
  · exact hne (List.flatten_eq_nil_iff.1 h part hpart)

theorem treatment_refuse_ne_nil
    {c : ClassInfo} {depth : Nat} {stack : List Nat} {m : DataMember} {type : Option ClassInfo}
    {msg : Bytes} (h : treatment c depth stack m type = .refuse msg) : msg ≠ [] := by
  have hcolons : str "::" ≠ [] := by decide
  have hsecond : ∀ {n : Nat} {part : Bytes} {parts : List Bytes}, n ≠ 0 →
    fixedString n (part :: str "::" :: parts) ≠ [] :=
    fun hn => fixedString_ne_nil hn (.tail _ (.head _)) hcolons
  unfold treatment at h
  split at h
  · cases h
    exact fixedString_ne_nil (by decide) (.tail _ (.head _)) (by decide)
  · simp only at h
    split at h
    · cases h
    split at h
    · cases h
      exact hsecond (by decide)
    split at h
    · split at h
      · cases h
        exact hsecond (by decide)
      · split at h
        · cases h
          exact hsecond (by decide)
        split at h
        · cases h
          exact hsecond (by decide)
        split at h
        · cases h
          exact hsecond (by decide)
        · cases h
    · cases h

theorem complaint_ne_nil {p : Place} : ∀ e ∈ p.events, e.complaint? ≠ some [] := by
  intro e he heq
  obtain ⟨q, -, hmeets⟩ := mem_events.1 he
  cases hmeets with
  | described hd hno =>
    exact fixedString_ne_nil (by decide) (.head _) (by decide) (Option.some.inj heq)
  | isVirtual h =>
    exact fixedString_ne_nil (by decide) (.tail _ (.head _)) (by decide) (Option.some.inj heq)
  | refused h ht => exact treatment_refuse_ne_nil ht (Option.some.inj heq)
  | field h ht => cases heq

/-- A member that its class can have: it is named, and unless it is skipped it has no more
annotations than there is room for; a flattened one is of a struct that is not being flattened, and
there is room for its path. -/
def SoundMember (c : ClassInfo) (depth : Nat) (stack : List Nat) (m : DataMember)
    (type : Option ClassInfo) : Prop :=
  ∃ identifier, m.identifier = some identifier ∧
    (hasMark .skip (memberAnnotations c identifier m) = true ∨
      (memberAnnotations c identifier m).length ≤ maxAnnotations ∧
        if hasMark .flatten (memberAnnotations c identifier m) then
          ∃ mt, type = some mt ∧ isOptionalLike m.ty = false ∧ mt.id ≠ c.id ∧ mt.id ∉ stack ∧
            depth + 2 ≤ maxMemberDepth
        else depth + 1 ≤ maxMemberDepth)

/-- A class that has nothing to complain about in itself. -/
structure Place.Sound (p : Place) : Prop where
  described : ∀ d ∈ p.cls.info.describedMembers, ∃ m ∈ p.cls.members.toList, m.identifier = some d.1
  bases : ∀ x ∈ p.cls.bases.list, x.1 = false
  members : ∀ x ∈ p.cls.members.list,
    SoundMember p.cls.info p.path.length p.stack x.1 (x.2.map Class.info)

theorem soundMember_iff {c : ClassInfo} {depth : Nat} {stack : List Nat} {m : DataMember}
    {type : Option ClassInfo} :
    SoundMember c depth stack m type ↔ (∀ msg, treatment c depth stack m type ≠ .refuse msg) ∧
      ∀ identifier anns, treatment c depth stack m type = .field identifier anns →
        depth < maxMemberDepth := by
  unfold SoundMember treatment
  cases m.identifier with
  | none => simp
  | some identifier =>
    simp only [Option.some.injEq, exists_eq_left']
    by_cases hskip : hasMark .skip (memberAnnotations c identifier m) = true
    · simp [hskip]
    · rw [if_neg hskip]
      simp only [hskip, Bool.false_eq_true, false_or]
      by_cases hmany : maxAnnotations < (memberAnnotations c identifier m).length
      · simp [hmany, Nat.not_le.2 hmany]
      · rw [if_neg hmany]
        simp only [Nat.not_lt.1 hmany, true_and]
        by_cases hflatten : hasMark .flatten (memberAnnotations c identifier m) = true
        · rw [if_pos hflatten, if_pos hflatten]
          cases type with
          | none => simp
          | some mt =>
            simp only [Option.some.injEq, exists_eq_left']
            by_cases hoptional : isOptionalLike m.ty = true
            · simp [hoptional]
            · by_cases hcycle : mt.id = c.id ∨ mt.id ∈ stack
              · rw [if_neg hoptional, if_pos hcycle]
                refine iff_of_false (fun h => ?_) (fun h => h.1 _ rfl)
                rcases hcycle with hc | hc
                · exact h.2.1 hc
                · exact h.2.2.1 hc
              · rw [if_neg hoptional, if_neg hcycle]
                rw [not_or] at hcycle
                by_cases hdepth : maxMemberDepth ≤ depth + 1
                · rw [if_pos hdepth]
                  exact iff_of_false (fun h => absurd h.2.2.2 (by omega)) (fun h => h.1 _ rfl)
                · rw [if_neg hdepth]
                  refine iff_of_true ⟨Bool.eq_false_of_not_eq_true hoptional, hcycle.1, hcycle.2,
                    by omega⟩ ⟨?_, ?_⟩
                  · intro msg h
                    cases h
                  · intro identifier anns h
                    cases h
        · rw [if_neg hflatten, if_neg hflatten]
          refine ⟨fun hroom => ⟨?_, fun _ _ _ => hroom⟩, fun h => h.2 identifier _ rfl⟩
          intro msg h
          cases h

theorem Place.sound_iff {p : Place} : p.Sound ↔ ∀ e, p.Meets e → e.complaint? = none ∧ e.Fits := by
  constructor
  · intro h e hmeets
    cases hmeets with
    | described hd hno =>
      obtain ⟨m, hm, heq⟩ := h.described _ hd
      exact absurd heq (hno m hm)
    | isVirtual hb => cases h.bases _ (List.mem_of_getElem? hb)
    | refused hm ht =>
      exact absurd ht ((soundMember_iff.1 (h.members _ (List.mem_of_getElem? hm))).1 _)
    | field hm ht =>
      exact ⟨rfl, (soundMember_iff.1 (h.members _ (List.mem_of_getElem? hm))).2 _ _ ht⟩
  · intro h
    refine ⟨fun d hd => ?_, fun x hx => ?_,
      fun x hx => soundMember_iff.2 ⟨fun msg ht => ?_, fun identifier anns ht => ?_⟩⟩
    · by_contra hno
      simp only [not_exists, not_and] at hno
      cases (h _ (.described hd hno)).1
    · obtain ⟨i, hi⟩ := List.mem_iff_getElem?.1 hx
      obtain ⟨v, b⟩ := x
      cases v with
      | false => rfl
      | true => cases (h _ (.isVirtual hi)).1
    · obtain ⟨i, hi⟩ := List.mem_iff_getElem?.1 hx
      cases (h _ (.refused hi ht)).1
    · obtain ⟨i, hi⟩ := List.mem_iff_getElem?.1 hx
      exact (h _ (.field hi ht)).2

/-- Nothing that the walk visits is refused. -/
def Class.Sound (c : Class) : Prop := ∀ q, Visits (start c) q → q.Sound

theorem Class.sound_iff {c : Class} :
    c.Sound ↔ ∀ e ∈ (start c).events, e.complaint? = none ∧ e.Fits := by
  constructor
  · intro h e he
    obtain ⟨q, hvisits, hmeets⟩ := mem_events.1 he
    exact Place.sound_iff.1 (h q hvisits) e hmeets
  · intro h q hvisits
    exact Place.sound_iff.2 fun e hmeets => h e (mem_events.2 ⟨q, hvisits, hmeets⟩)

/-! ### Names -/

def FieldMeta.names (f : FieldMeta) : List Bytes := f.info.wireName :: f.info.aliases

theorem map_key_entriesOf (fs : List FieldMeta) :
    (fs.flatMap entriesOf).map Entry.key = fs.flatMap FieldMeta.names := by
  rw [List.map_flatMap]
  refine congrArg (List.flatMap · fs) (funext fun f => ?_)
  rw [entriesOf, List.map_cons, List.map_map, FieldMeta.names]
  exact congrArg (_ :: ·) (List.map_id _)

theorem firstClash_eq_none {es : List Entry} : firstClash es = none ↔ (es.map Entry.key).Nodup := by
  induction es with
  | nil => exact iff_of_true rfl List.nodup_nil
  | cons e es ih =>
    rw [List.map_cons, List.nodup_cons, ← ih, firstClash]
    cases hfind : es.find? (·.key = e.key) with
    | none =>
      refine (and_iff_right fun hmem => ?_).symm
      obtain ⟨e', he', hkey⟩ := List.mem_map.1 hmem
      exact List.find?_eq_none.1 hfind e' he' (decide_eq_true hkey)
    | some e' =>
      refine iff_of_false (fun h => by cases h) fun h => h.1 ?_
      have hkey := List.find?_some hfind
      exact List.mem_map.2 ⟨e', List.mem_of_find?_eq_some hfind, of_decide_eq_true hkey⟩

theorem mem_of_firstClash {es : List Entry} {a b : Entry} (h : firstClash es = some (a, b)) :
    a ∈ es ∧ b ∈ es := by
  induction es with
  | nil => cases h
  | cons e es ih =>
    rw [firstClash] at h
    cases hfind : es.find? (·.key = e.key) with
    | none =>
      rw [hfind] at h
      exact ⟨List.mem_cons_of_mem _ (ih h).1, List.mem_cons_of_mem _ (ih h).2⟩
    | some e' =>
      rw [hfind] at h
      cases h
      exact ⟨List.mem_cons_self, List.mem_cons_of_mem _ (List.mem_of_find?_eq_some hfind)⟩

/-! ### The build -/

/-- The table of fields. -/
def fieldsOf (c : Class) : List FieldMeta := numbered 0 (start c).events

theorem fieldsOf_index {c : Class} {n : Nat} {f : FieldMeta} (h : (fieldsOf c)[n]? = some f) :
    f.info.memberIndex = n := by
  obtain ⟨owner, path, vf, vb, i, m, identifier, anns, -, rfl⟩ := numbered_getElem? h
  exact Nat.zero_add n

/-- An entry names a field of the table. -/
theorem entry_field {c : Class} {e : Entry} (h : e ∈ (fieldsOf c).flatMap entriesOf) :
    ∃ f, (fieldsOf c)[e.field]? = some f := by
  obtain ⟨f, hf, he⟩ := List.mem_flatMap.1 h
  obtain ⟨n, hn⟩ := List.mem_iff_getElem?.1 hf
  have hfield : e.field = f.info.memberIndex := by
    rcases List.mem_cons.1 he with rfl | he
    · rfl
    · obtain ⟨a, -, rfl⟩ := List.mem_map.1 he
      rfl
  exact ⟨f, by rw [hfield, fieldsOf_index hn, hn]⟩

theorem collectFields_start (c : Class) :
    collectFields [] false false c {} = (start c).events.foldlM step {} :=
  collectFields_eq [] false false c {}

/-- The build of a class ends with its table of fields, without a complaint exactly if the class is
sound and no name leads to two fields. -/
theorem runBuild_spec {c : Class} {st : BuildState} (h : runBuild c = some st) :
    st.fields = fieldsOf c ∧ (∀ e ∈ (start c).events, e.Fits) ∧
      (st.error = [] ↔ c.Sound ∧ ((fieldsOf c).flatMap FieldMeta.names).Nodup) := by
  obtain ⟨st₁, hcollect, hcheck⟩ := Option.bind_eq_some_iff.1 h
  rw [collectFields_start] at hcollect
  have hw := walked complaint_ne_nil hcollect
  have hfields : st₁.fields = fieldsOf c := hw.fields
  have hclean : st₁.error = [] ↔ c.Sound := by
    refine (hw.clean.trans (and_iff_right rfl)).trans (Class.sound_iff.trans ?_).symm
    exact ⟨fun h e he => (h e he).1, fun h e he => ⟨h e he, hw.fits e he⟩⟩
  unfold checkDuplicates at hcheck
  rw [hfields] at hcheck
  cases hclash : firstClash ((fieldsOf c).flatMap entriesOf) with
  | none =>
    rw [hclash] at hcheck
    cases hcheck
    refine ⟨hfields, hw.fits, hclean.trans (and_iff_left ?_).symm⟩
    rw [← map_key_entriesOf]
    exact firstClash_eq_none.1 hclash
  | some x =>
    obtain ⟨ea, eb⟩ := x
    rw [hclash] at hcheck
    obtain ⟨a, -, hcheck⟩ := Option.bind_eq_some_iff.1 hcheck
    obtain ⟨b, -, hcheck⟩ := Option.bind_eq_some_iff.1 hcheck
    cases hcheck
    refine ⟨(fail_fields _ _).trans hfields, hw.fits,
      iff_of_false (fail_error ?_ st₁) fun hok => ?_⟩
    · exact fixedString_ne_nil (by decide) (.tail _ (.head _)) (by decide)
    · rw [← map_key_entriesOf, ← firstClash_eq_none, hclash] at hok
      cases hok.2

theorem exists_runBuild {c : Class} (hfits : ∀ e ∈ (start c).events, e.Fits) :
    ∃ st, runBuild c = some st := by
  obtain ⟨st₁, hwalk⟩ := exists_walk hfits {}
  have hfields : st₁.fields = fieldsOf c := (walked complaint_ne_nil hwalk).fields
  rw [runBuild, collectFields_start, hwalk]
  show ∃ st, checkDuplicates st₁ = some st
  unfold checkDuplicates
  rw [hfields]
  cases hclash : firstClash ((fieldsOf c).flatMap entriesOf) with
  | none => exact ⟨st₁, rfl⟩
  | some x =>
    obtain ⟨ea, eb⟩ := x
    obtain ⟨hea, heb⟩ := mem_of_firstClash hclash
    obtain ⟨a, ha⟩ := entry_field hea
    obtain ⟨b, hb⟩ := entry_field heb
    refine ⟨st₁.fail (duplicateError ea eb a.info b.info), ?_⟩
    show ((fieldsOf c)[ea.field]? >>= fun a => (fieldsOf c)[eb.field]? >>= fun b => _) = _
    rw [ha, hb]
    rfl

/-! ### The schema -/

/-- A class with a schema: what the walk visits is sound, a name leads to one field, and a
transparent class has exactly one. -/
structure Class.Accepted (c : Class) : Prop where
  sound : c.Sound
  names : ((fieldsOf c).flatMap FieldMeta.names).Nodup
  transparent : hasMark .transparent (typeAnnotations c.info) = true → (fieldsOf c).length = 1

/-- The schema of a class is built and has no error exactly if the class is accepted. -/
theorem buildTypeInfo_ok_iff (c : Class) :
    (∃ ti, buildTypeInfo c = some ti ∧ ti.ok = true) ↔ c.Accepted := by
  have hmsg : ∀ n, transparentError c.info.name n ≠ [] := fun n =>
    fixedString_ne_nil (by decide) (.tail _ (.tail _ (.tail _ (.head _)))) (by decide)
  have hrun : ∀ st, runBuild c = some st → ((∃ ti, buildTypeInfo c = some ti ∧ ti.ok = true) ↔
      st.error = [] ∧ (hasMark .transparent (typeAnnotations c.info) = true →
        st.fields.length = 1)) := by
    intro st hst
    unfold buildTypeInfo
    rw [hst]
    simp only [Option.bind_eq_bind, Option.bind_some, Option.pure_def, Option.some.injEq,
      exists_eq_left', TypeInfo.ok, decide_eq_true_eq]
    split
    · rename_i htwo
      exact iff_of_false (fail_error (hmsg _) st) fun h => htwo.2 (h.2 htwo.1)
    · rename_i hone
      exact (and_iff_left fun ht => not_not.1 fun hne => hone ⟨ht, hne⟩).symm
  constructor
  · rintro ⟨ti, hti, hok⟩
    obtain ⟨st, hst, -⟩ := Option.bind_eq_some_iff.1 hti
    obtain ⟨hfields, -, hclean⟩ := runBuild_spec hst
    obtain ⟨herror, hone⟩ := (hrun st hst).1 ⟨ti, hti, hok⟩
    obtain ⟨hsound, hnames⟩ := hclean.1 herror
    exact ⟨hsound, hnames, hfields ▸ hone⟩
  · rintro ⟨hsound, hnames, hone⟩
    obtain ⟨st, hst⟩ := exists_runBuild fun e he => (Class.sound_iff.1 hsound e he).2
    obtain ⟨hfields, -, hclean⟩ := runBuild_spec hst
    exact (hrun st hst).2 ⟨hclean.2 ⟨hsound, hnames⟩, hfields ▸ hone⟩

/-! ### The table -/

theorem pairwise_fieldsOf (c : Class) : ((fieldsOf c).map (·.path)).Pairwise Precedes := by
  rw [fieldsOf, numbered_map_path, List.pairwise_filterMap]
  exact (pairwise_classEvents [] [] false false c).imp fun h => h

/-- A field of the table is a member of a visited class. -/
theorem exists_of_fieldsOf {c : Class} {n : Nat} {f : FieldMeta} (h : (fieldsOf c)[n]? = some f) :
    ∃ q i m type identifier anns, Visits (start c) q ∧ q.cls.members.list[i]? = some (m, type) ∧
      q.treats m type = .field identifier anns ∧
        f = fieldMeta q.cls q.path q.viaFlatten q.viaBase i m identifier anns n := by
  obtain ⟨owner, path, vf, vb, i, m, identifier, anns, hmem, hf⟩ := numbered_getElem? h
  obtain ⟨q, hvisits, hmeets⟩ := mem_events.1 hmem
  cases hmeets with
  | field hm ht => exact ⟨q, i, m, _, identifier, anns, hvisits, hm, ht, by rw [hf, Nat.zero_add]⟩

theorem fieldsOf_of_visits
    {c : Class} {q : Place} {i : Nat} {m : DataMember} {type : Option Class} {identifier : Bytes}
    {anns : List Ann} (hvisits : Visits (start c) q) (hm : q.cls.members.list[i]? = some (m, type))
    (ht : q.treats m type = .field identifier anns) :
    ∃ n, (fieldsOf c)[n]? =
      some (fieldMeta q.cls q.path q.viaFlatten q.viaBase i m identifier anns n) := by
  obtain ⟨n, hn⟩ := numbered_of_mem (n := 0) (mem_events.2 ⟨q, hvisits, .field hm ht⟩)
  exact ⟨n, by rw [Nat.zero_add] at hn; exact hn⟩

/-- The table of fields that the build leaves lists the members of the visited classes that are
neither left out nor spliced nor refused, each at its own position, in the order of their paths. -/
theorem runBuild_lists {c : Class} {st : BuildState} (h : runBuild c = some st) :
    (st.fields.map (·.path)).Pairwise Precedes ∧
      (∀ n f, st.fields[n]? = some f → ∃ q i m type identifier anns, Visits (start c) q ∧
        q.cls.members.list[i]? = some (m, type) ∧ q.treats m type = .field identifier anns ∧
        f = fieldMeta q.cls q.path q.viaFlatten q.viaBase i m identifier anns n) ∧
      ∀ q i m type identifier anns, Visits (start c) q → q.cls.members.list[i]? = some (m, type) →
        q.treats m type = .field identifier anns →
        ∃ n, st.fields[n]? =
          some (fieldMeta q.cls q.path q.viaFlatten q.viaBase i m identifier anns n) := by
  rw [(runBuild_spec h).1]
  exact ⟨pairwise_fieldsOf c, fun _ _ hf => exists_of_fieldsOf hf,
    fun _ _ _ _ _ _ hvisits hm ht => fieldsOf_of_visits hvisits hm ht⟩

def member (identifier : Bytes) (ty : Ty) (annotations : List Ann) : DataMember :=
  { identifier := some identifier, ty, annotations }

/-- `struct Named { std::string name; };` -/
def named : Class :=
  .mk { id := 0, name := str "Named" } .nil (.plain (member (str "name") (.string false) []) .nil)

/-- `struct Point { int x, y; [[=skip]] bool cached; };` -/
def point : Class :=
  .mk { id := 1, name := str "Point" } .nil
    (.plain (member (str "x") (.int ⟨true, .w32⟩) [])
      (.plain (member (str "y") (.int ⟨true, .w32⟩) [])
      (.plain (member (str "cached") .bool [.mark .skip]) .nil)))

/-- `struct Disc : Named { [[=flatten]] Point center; [[=name("r")]] double radius; };` -/
def disc : Class :=
  .mk { id := 2, name := str "Disc" } (.cons false named .nil)
    (.object (member (str "center") (.struct 1) [.mark .flatten]) point
      (.plain (member (str "radius") .double [.name (str "r")]) .nil))

theorem disc_built : (runBuild disc).isSome = true := by decide +kernel

theorem runBuild_lists_disc :
    ∃ st, runBuild disc = some st ∧ (st.fields.map (·.path)).Pairwise Precedes := by
  obtain ⟨st, hst⟩ := Option.isSome_iff_exists.1 disc_built
  exact ⟨st, hst, (runBuild_lists hst).1⟩

end VCodec.Schema
