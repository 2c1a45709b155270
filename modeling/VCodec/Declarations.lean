import VCodec.Audits

/-!
# Declarations

The allocation of keys looks at less of a class than reflection shows: its `ClassDecl`. The
declaration of a class that is built without a complaint has the fields of its table, so its keys
are those of the schema, and `check_type` judges both alike.
-/

namespace VCodec.Cbor

open Schema

/-! ### Declarations -/

def classAnns (c : ClassInfo) : ClassAnns where
  integerKeys := hasMark .integerKeys (typeAnnotations c)
  indefinite := hasMark .indefinite (typeAnnotations c)
  deterministic := hasMark .deterministic (typeAnnotations c)

/-- A member, with the class that is spliced in its place if it is flattened. -/
def memberDecl (c : ClassInfo) (m : DataMember) (spliced : ClassDecl) : MemberDecl :=
  match declared c m with
  | .field identifier anns => .field identifier (findAnn Ann.key? anns)
  | .splice => .flatten (m.identifier.getD []) spliced
  | .refuse _ | .leaveOut => .skip (m.identifier.getD [])

mutual

/-- A class, as far as the allocation of keys looks at it. -/
def declaration : Schema.Class → ClassDecl
  | .mk info bs ms => .mk info.name (classAnns info) (baseDecls bs) (memberDecls info ms)

def baseDecls : Bases → List ClassDecl
  | .nil => []
  | .cons _ b bs => declaration b :: baseDecls bs

def memberDecls (c : ClassInfo) : Members → List MemberDecl
  | .nil => []
  | .plain m ms => memberDecl c m (.mk [] {} [] []) :: memberDecls c ms
  | .object m mt ms => memberDecl c m (declaration mt) :: memberDecls c ms

end

/-- A field of the table, as far as the allocation of keys looks at it. -/
def fieldEntry (f : Schema.FieldMeta) : FieldEntry where
  identifier := f.info.identifier
  key := findAnn Ann.key? f.annotations
  owner := f.owner.info.name
  ownerAnns := classAnns f.owner.info
  flattened := f.info.flattened
  inherited := f.info.inherited

def eventEntry : Event → Option FieldEntry
  | .complaint _ => none
  | .field owner _ viaFlatten viaBase _ _ identifier anns =>
    some { identifier, key := findAnn Ann.key? anns, owner := owner.info.name, ownerAnns := classAnns owner.info,
           flattened := viaFlatten, inherited := viaBase }

theorem map_fieldEntry (n : Nat) (es : List Event) :
    (numbered n es).map fieldEntry = es.filterMap eventEntry := by
  induction es generalizing n with
  | nil => rfl
  | cons e es ih =>
    cases e with
    | complaint msg => exact ih n
    | field owner path viaFlatten viaBase i m identifier anns => exact congrArg (_ :: ·) (ih (n + 1))

/-- A member that is not refused is treated as declared. -/
theorem treatment_eq_declared
    {c : ClassInfo} {depth : Nat} {stack : List Nat} {m : DataMember} {type : Option ClassInfo} :
    (∃ msg, treatment c depth stack m type = .refuse msg) ∨
      treatment c depth stack m type = declared c m ∧
        (declared c m = .splice → ∃ mt, type = some mt) := by
  unfold treatment declared
  cases m.identifier with
  | none => exact .inl ⟨_, rfl⟩
  | some identifier =>
    simp only
    split
    · exact .inr ⟨rfl, fun h => nomatch h⟩
    · split
      · exact .inl ⟨_, rfl⟩
      · split
        · cases type with
          | none => exact .inl ⟨_, rfl⟩
          | some mt =>
            simp only
            repeat' split
            all_goals first | exact .inl ⟨_, rfl⟩ | exact .inr ⟨rfl, fun _ => ⟨_, rfl⟩⟩
        · exact .inr ⟨rfl, fun h => nomatch h⟩

/-- Nothing to complain about. -/
def Silent (es : List Event) : Prop := ∀ e ∈ es, e.complaint? = none

theorem silent_append {es es' : List Event} :
    Silent (es ++ es') ↔ Silent es ∧ Silent es' := List.forall_mem_append

theorem not_silent_refuse
    {c : Schema.Class} {path : List Hop} {vf vb : Bool} {i : Nat} {m : DataMember} {msg : Bytes} :
    ¬ Silent (memberEvents c path vf vb i m (.refuse msg)) :=
  fun h => nomatch h _ List.mem_cons_self

theorem entries_memberEvents {c : Schema.Class} {path : List Hop} {vf vb : Bool} {i : Nat} {m : DataMember} {d : ClassDecl}
    (hflat : declared c.info m ≠ .splice) :
    (memberEvents c path vf vb i m (declared c.info m)).filterMap eventEntry =
      collectMember vf vb c.info.name (classAnns c.info) (memberDecl c.info m d) := by
  unfold memberDecl
  cases htreat : declared c.info m with
  | refuse _ | leaveOut => rfl
  | splice => exact absurd htreat hflat
  | field identifier anns => rfl

mutual

/-- Without a complaint, the walk over a class lists what its declaration lists. -/
theorem entries_classEvents (path : List Hop) (stack : List Nat) (vf vb : Bool) (c : Schema.Class)
    (h : Silent (classEvents path stack vf vb c)) :
    (classEvents path stack vf vb c).filterMap eventEntry =
      collectFields vf vb (declaration c) := by
  match c with
  | .mk info bs ms =>
    rw [classEvents, silent_append, silent_append] at h
    obtain ⟨hdescribed, hbases, hmembers⟩ := h
    have hnone : (describedEvents info ms.toList).filterMap eventEntry = [] := by
      apply List.filterMap_eq_nil_iff.2
      intro e he
      obtain ⟨d, -, -, rfl⟩ := mem_describedEvents.1 he
      rfl
    rw [classEvents, List.filterMap_append, List.filterMap_append, hnone, List.nil_append,
      entries_baseEvents info path stack vf 0 bs hbases,
      entries_membersEvents (.mk info bs ms) path stack vf vb 0 ms hmembers, declaration,
        collectFields]
    rfl

theorem entries_baseEvents (c : ClassInfo) (path : List Hop) (stack : List Nat) (vf : Bool)
    (i : Nat) (bs : Bases) (h : Silent (baseEvents c path stack vf i bs)) :
    (baseEvents c path stack vf i bs).filterMap eventEntry = collectBases vf (baseDecls bs) := by
  match bs with
  | .nil => rfl
  | .cons isVirtual b bs =>
    rw [baseEvents, silent_append] at h
    obtain ⟨hbase, hrest⟩ := h
    cases isVirtual with
    | true => cases hbase _ List.mem_cons_self
    | false =>
      rw [baseEvents, List.filterMap_append, entries_baseEvents c path stack vf (i + 1) bs hrest,
        baseDecls, collectBases]
      exact congrArg (· ++ _) (entries_classEvents (path ++ [Hop.base i]) stack vf true b hbase)

theorem entries_membersEvents
    (c : Schema.Class) (path : List Hop) (stack : List Nat) (vf vb : Bool) (i : Nat) (ms : Members)
    (h : Silent (membersEvents c path stack vf vb i ms)) :
    (membersEvents c path stack vf vb i ms).filterMap eventEntry =
      collectMembers vf vb c.info.name (classAnns c.info) (memberDecls c.info ms) := by
  match ms with
  | .nil => rfl
  | .plain m ms =>
    rw [membersEvents, silent_append] at h
    obtain ⟨hmember, hrest⟩ := h
    rw [membersEvents, List.filterMap_append,
      entries_membersEvents c path stack vf vb (i + 1) ms hrest, memberDecls,
      collectMembers]
    obtain ⟨msg, hrefuse⟩ | ⟨htreat, hsplice⟩ :=
      @treatment_eq_declared c.info path.length stack m none
    · rw [hrefuse] at hmember
      exact absurd hmember not_silent_refuse
    · rw [htreat, entries_memberEvents fun hflat => nomatch hsplice hflat]
  | .object m mt ms =>
    rw [membersEvents, silent_append] at h
    obtain ⟨hmember, hrest⟩ := h
    rw [membersEvents, List.filterMap_append,
      entries_membersEvents c path stack vf vb (i + 1) ms hrest, memberDecls,
      collectMembers]
    obtain ⟨msg, hrefuse⟩ | ⟨htreat, -⟩ :=
      @treatment_eq_declared c.info path.length stack m (some mt.info)
    · rw [hrefuse] at hmember
      have hrefused : Silent (memberEvents c path vf vb i m (.refuse msg)) := hmember
      exact absurd hrefused not_silent_refuse
    · rw [htreat] at hmember ⊢
      by_cases hflat : declared c.info m = .splice
      · rw [hflat] at hmember ⊢
        have hinside :=
          entries_classEvents (path ++ [Hop.member i]) (stack ++ [c.info.id]) true vb mt hmember
        rw [Treatment.select, hinside, memberDecl, hflat, collectMember]
      · have hown : ∀ l, (declared c.info m).select l
          (memberEvents c path vf vb i m (declared c.info m)) =
            memberEvents c path vf vb i m (declared c.info m) := by
          intro l
          cases hd : declared c.info m with
          | splice => exact absurd hd hflat
          | _ => rfl
        rw [hown, entries_memberEvents hflat]

end

/-- The declaration of a sound class has the fields of its table. -/
theorem fields_declaration {c : Schema.Class} (h : c.Sound) :
    (declaration c).fields = (fieldsOf c).map fieldEntry := by
  rw [fieldsOf, map_fieldEntry]
  exact (entries_classEvents [] [] false false c fun e he => (Class.sound_iff.1 h e he).1).symm

theorem anns_declaration (c : Schema.Class) : (declaration c).anns = classAnns c.info := by
  cases c
  rfl

/-- The owner that the keys are allocated from is that of the declaration. -/
theorem ownerOf_declaration {c : Schema.Class} {o : Owner} (h : c.Sound) (ho : ownerOf c = some o) :
    o = (declaration c).owner := by
  obtain ⟨st, hst, ho⟩ := Option.bind_eq_some_iff.1 ho
  cases ho
  rw [ClassDecl.owner, fields_declaration h, anns_declaration, (runBuild_spec hst).1, List.map_map]
  rfl

/-- `check_type` lets a class have `integer_keys` as it lets its declaration. -/
theorem checkClass_declaration
    {c : Schema.Class} (h : c.Sound)
    (hkeys : hasMark .integerKeys (typeAnnotations c.info) = true) :
    checkClass c (fieldsOf c) = [] ↔ checkType (declaration c) = [] := by
  have hspan : (declaration c).fields.find? (fun f => f.flattened || f.inherited) =
      ((fieldsOf c).find? fun f => f.info.flattened || f.info.inherited).map fieldEntry := by
    rw [fields_declaration h, List.find?_map]
    rfl
  have hflatten : (declaration c).fields.find? (fun f => f.flattened && f.ownerAnns.integerKeys) =
      ((fieldsOf c).find? fun f => f.info.flattened && hasMark .integerKeys
        (typeAnnotations f.owner.info)).map fieldEntry := by
    rw [fields_declaration h, List.find?_map]
    rfl
  unfold checkClass checkType
  rw [hspan, hflatten, anns_declaration]
  simp only [classAnns, hkeys, if_true]
  cases hfind : (fieldsOf c).find? fun f => f.info.flattened || f.info.inherited with
  | some f =>
    simp only [Option.map_some]
    exact iff_of_false
      (List.append_ne_nil_of_left_ne_nil (List.append_ne_nil_of_left_ne_nil (by decide) _) _)
      (List.append_ne_nil_of_left_ne_nil (List.append_ne_nil_of_left_ne_nil (by decide) _) _)
  | none =>
    -- nothing is flattened, so the other complaint is not made either
    have hown : ∀ f ∈ fieldsOf c, f.info.flattened = false := fun f hf => by
      have hf := List.find?_eq_none.1 hfind f hf
      rw [Bool.not_eq_true, Bool.or_eq_false_iff] at hf
      exact hf.1
    have hnone : ∀ p : Schema.FieldMeta →
      Bool, (fieldsOf c).find? (fun f => f.info.flattened && p f) = none := fun p =>
      List.find?_eq_none.2 fun f hf => by simp [hown f hf]
    have hclass : (fieldsOf c).find? (flattensKeys c) = none :=
      List.find?_eq_none.2 fun f hf => by simp [flattensKeys, hown f hf]
    rw [hclass, hnone]
    simp

end VCodec.Cbor
