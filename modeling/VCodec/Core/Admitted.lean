import VCodec.Core.Audit

/-!
# What the audit admits

The audit turns back at a struct that it is in or has done. What it has found of a type when it
turns back somewhere is said by `Covered`: the parts are acceptable down to structs that are known.
At the end every known struct is done, and what is known of each is true of all that is reached.
-/

namespace VCodec.Schema

open Relation (ReflTransGen)

section

variable (F : Rules) (P : Types) (dir : Direction) (b : Prop)

/-- A type that is acceptable apart from its parts, and that aliases the input only if `b`. -/
structure Admissible (x : Node) : Prop where
  acceptable : Acceptable F P dir x
  borrows : Borrows dir x → b

/-- Acceptable down to the structs of `S`. -/
inductive Covered (S : Nat → Prop) : Node → Prop
  | struct {f : VCodec.FieldMeta} {id : Nat} (h : S id) : Covered S (f, .struct id)
  | other {x : Node} (ha : Admissible F P dir b x) (hp : ∀ y, Part F P dir x y → Covered S y) :
      Covered S x

/-- A struct that is audited, down to the structs of `S`. -/
structure Entered (S : Nat → Prop) (id : Nat) : Prop where
  sound : SoundStruct F P dir id
  parts : ∀ f y, Part F P dir (f, .struct id) y → Covered F P dir b S y

def AuditState.Knows (st : AuditState) (id : Nat) : Prop := id ∈ st.visiting ∨ id ∈ st.done

/-- A walk from one state to another that has left the structs it has entered. -/
structure Grown (st st' : AuditState) : Prop where
  visiting : st'.visiting = st.visiting
  done : ∀ id ∈ st.done, id ∈ st'.done
  entered : ∀ id ∈ st'.done, id ∈ st.done ∨ Entered F P dir b st'.Knows id

/-- There is no complaint, and what aliases the input does so only if `b`. -/
def AuditState.Clean (st : AuditState) : Prop := st.error = [] ∧ (st.borrows = true → b)

/-- What is true of the known structs if the audit ends without a complaint. -/
def Tells (m : Audit) (Q : (Nat → Prop) → Prop) : Prop :=
  ∀ st st', m st = some st' → st.dir = dir →
    st'.dir = dir ∧ (st'.Clean b → st.Clean b ∧ Grown F P dir b st st' ∧ Q st'.Knows)

def AuditState.Clear (st : AuditState) : Prop := st.dir = dir ∧ st.Clean b

/-- An audit that has nothing to complain about. -/
def Passes (m : Audit) : Prop := ∀ st st', m st = some st' → st.Clear dir b → st'.Clear dir b

end

section

variable {F : Rules} {P : Types} {dir : Direction} {b : Prop} {S T : Nat → Prop}
    {Q : (Nat → Prop) → Prop}

theorem Covered.mono (h : ∀ id, S id → T id) {x : Node} (hx : Covered F P dir b S x) :
    Covered F P dir b T x := by
  induction hx with
  | struct hs => exact .struct (h _ hs)
  | other ha _ ih => exact .other ha ih

theorem Entered.mono (h : ∀ id, S id → T id) {id : Nat} (hid : Entered F P dir b S id) :
    Entered F P dir b T id :=
  ⟨hid.sound, fun f y hy => (hid.parts f y hy).mono h⟩

theorem Grown.knows {st st' : AuditState} (h : Grown F P dir b st st') {id : Nat}
    (hid : st.Knows id) : st'.Knows id := by
  rcases hid with hid | hid
  · exact .inl (h.visiting ▸ hid)
  · exact .inr (h.done id hid)

theorem Grown.refl (st : AuditState) : Grown F P dir b st st :=
  ⟨rfl, fun _ h => h, fun _ h => .inl h⟩

theorem Grown.trans {st₁ st₂ st₃ : AuditState} (h : Grown F P dir b st₁ st₂)
    (h' : Grown F P dir b st₂ st₃) : Grown F P dir b st₁ st₃ := by
  refine ⟨h'.visiting.trans h.visiting, fun id hid => h'.done id (h.done id hid), fun id hid => ?_⟩
  rcases h'.entered id hid with hid | hid
  · exact (h.entered id hid).imp_right (Entered.mono fun _ => h'.knows)
  · exact .inr hid

/-! ### The rules of the audit -/

theorem AuditState.fail_error {msg : Bytes} (hmsg : msg ≠ []) (st : AuditState) :
    (st.fail msg).error ≠ [] := by
  unfold AuditState.fail
  split
  · exact hmsg
  · assumption

theorem AuditState.fail_dir (msg : Bytes) (st : AuditState) : (st.fail msg).dir = st.dir := by
  unfold AuditState.fail
  split <;> rfl

theorem Tells.fail {msg : Bytes} (hmsg : msg ≠ []) :
    Tells F P dir b (fun st => some (st.fail msg)) Q := by
  intro st st' h hdir
  cases h
  exact ⟨(st.fail_dir msg).trans hdir, fun hok => absurd hok.1 (st.fail_error hmsg)⟩

theorem AuditState.borrow_borrows {v : Bool} {st : AuditState} (hdir : st.dir = dir) :
    (st.borrow v).borrows = true ↔ st.borrows = true ∨ dir = .decode ∧ v = true := by
  unfold AuditState.borrow
  rw [Bool.or_eq_true_iff, Bool.and_eq_true_iff, decide_eq_true_eq, hdir, and_comm]

theorem Tells.borrow {v : Bool} (hQ : (dir = .decode ∧ v = true → b) → ∀ S, Q S) :
    Tells F P dir b (fun st => some (st.borrow v)) Q := by
  intro st st' h hdir
  cases h
  refine ⟨hdir, fun hok => ⟨⟨hok.1, fun hb => hok.2 ((AuditState.borrow_borrows hdir).2 (.inl hb))⟩,
    ⟨rfl, fun _ h => h, fun _ h => .inl h⟩, ?_⟩⟩
  exact hQ (fun hb => hok.2 ((AuditState.borrow_borrows hdir).2 (.inr hb))) _

theorem Tells.pure (hQ : ∀ S, Q S) : Tells F P dir b some Q := by
  intro st st' h hdir
  cases h
  exact ⟨hdir, fun hok => ⟨hok, .refl _, hQ _⟩⟩

theorem Tells.imp {R : (Nat → Prop) → Prop}
    {m : Audit} (h : Tells F P dir b m Q) (hQ : ∀ S, Q S → R S) : Tells F P dir b m R := by
  intro st st' hm hdir
  obtain ⟨hdir', htells⟩ := h st st' hm hdir
  refine ⟨hdir', fun hok => ?_⟩
  obtain ⟨herror, hgrown, hq⟩ := htells hok
  exact ⟨herror, hgrown, hQ _ hq⟩

/-- A failed walk goes no further. -/
theorem Tells.unlessFailed {m : Audit} (h : Tells F P dir b m Q) :
    Tells F P dir b (fun st => if st.failed then some st else m st) Q := by
  intro st st' hm hdir
  by_cases hfailed : st.failed = true
  · simp only [hfailed, if_true, Option.some.injEq] at hm
    subst hm
    rw [AuditState.failed, decide_eq_true_eq] at hfailed
    exact ⟨hdir, fun hok => absurd hok.1 hfailed⟩
  · simp only [hfailed] at hm
    exact h st st' hm hdir

theorem Tells.bind {m k : Audit} {R : (Nat → Prop) → Prop}
    (hmono : ∀ S T, (∀ id, S id → T id) → Q S → Q T)
    (h : Tells F P dir b m Q) (h' : Tells F P dir b k R) :
    Tells F P dir b (fun st => (m st).bind k) fun S => Q S ∧ R S := by
  intro st st' hm hdir
  obtain ⟨st₁, hx, hrest⟩ := Option.bind_eq_some_iff.1 hm
  obtain ⟨hdir₁, hfirst⟩ := h st st₁ hx hdir
  obtain ⟨hdir', hthen⟩ := h' st₁ st' hrest hdir₁
  refine ⟨hdir', fun hok => ?_⟩
  obtain ⟨herror₁, hgrown₁, hr⟩ := hthen hok
  obtain ⟨herror, hgrown, hq⟩ := hfirst herror₁
  exact ⟨herror, hgrown.trans hgrown₁, hmono _ _ (fun _ => hgrown₁.knows) hq, hr⟩

theorem Tells.foldlM {α : Type} {m : α → Audit} {R : α → (Nat → Prop) → Prop}
    (hmono : ∀ x S T, (∀ id, S id → T id) → R x S → R x T)
    {xs : List α} (h : ∀ x ∈ xs, Tells F P dir b (m x) (R x)) :
    Tells F P dir b (fun st => xs.foldlM (fun st x => m x st) st) fun S => ∀ x ∈ xs, R x S := by
  induction xs with
  | nil => exact Tells.pure fun _ _ hx => absurd hx List.not_mem_nil
  | cons x xs ih =>
    have hall := Tells.bind (hmono x) (h x List.mem_cons_self)
      (ih fun y hy => h y (List.mem_cons_of_mem _ hy))
    exact hall.imp fun S hS => List.forall_mem_cons.2 hS

/-! ### Structs -/

theorem about_ne_nil (t : Ty) (msg : List Bytes) (path : Bytes) : path ++ about P t msg ≠ [] := by
  unfold about
  intro h
  have hnil := (List.append_eq_nil_iff.1 h).2
  have hfirst :=
    (List.append_eq_nil_iff.1 (List.append_eq_nil_iff.1 (List.append_eq_nil_iff.1 hnil).1).1).1
  exact absurd hfirst (by decide)

theorem memberFault_about
    {id : Nat} {f : FieldMeta} {msg : Bytes} (h : memberFault F P id f = some msg) :
    ∃ t parts, msg = about P t parts := by
  unfold memberFault at h
  simp only at h
  split_ifs at h <;> cases h <;> exact ⟨_, _, rfl⟩

/-- What the audit of a member of struct `id` finds, if `R` is found of its type. -/
def Checked (F : Rules) (P : Types) (dir : Direction) (id : Nat) (R : Field → (Nat → Prop) → Prop)
    (f : FieldMeta) (S : Nat → Prop) : Prop :=
  f.skipped dir = false → memberFault F P id f = none ∧ ∃ x, f.field = some x ∧ R x S

variable {rec : VCodec.FieldMeta → Ty → Bytes → Audit} {id : Nat} {path : Bytes}

theorem Tells.field {f : FieldMeta} {R : Field → (Nat → Prop) → Prop}
    (hrec : ∀ x path, f.field = some x → Tells F P dir b (rec x.info f.type path) (R x)) :
    Tells F P dir b (auditField F P rec id path f) (Checked F P dir id R f) := by
  intro st st' hm hdir
  rw [auditField, hdir] at hm
  by_cases hskip : f.skipped dir = true
  · rw [if_pos hskip] at hm
    exact Tells.pure (fun S hno => by rw [hskip] at hno; cases hno) st st' hm hdir
  · rw [if_neg hskip] at hm
    cases hfault : memberFault F P id f with
    | some msg =>
      rw [hfault] at hm
      obtain ⟨t, parts, rfl⟩ := memberFault_about hfault
      exact Tells.fail (about_ne_nil t parts _) st st' hm hdir
    | none =>
      rw [hfault] at hm
      obtain ⟨x, hx, hm⟩ := Option.bind_eq_some_iff.1 hm
      exact (hrec x _ hx).imp (fun S hR _ => ⟨hfault, x, hx, hR⟩) st st' hm hdir

theorem Tells.members {R : Field → (Nat → Prop) → Prop}
    (hmono : ∀ x S T, (∀ id, S id → T id) → R x S → R x T)
    {fs : List FieldMeta} (hrec : ∀ f ∈ fs, ∀ x path, f.field = some x →
      Tells F P dir b (rec x.info f.type path) (R x)) :
    Tells F P dir b (auditMembers F P rec id path fs) fun S => ∀ f ∈ fs,
      Checked F P dir id R f S := by
  refine Tells.foldlM (fun f S T hST hf hskip => ?_) fun f hf =>
    (Tells.field (hrec f hf)).unlessFailed
  obtain ⟨hfault, x, hx, hR⟩ := hf hskip
  exact ⟨hfault, x, hx, hmono x S T hST hR⟩

theorem clashOf_eq_none {d : StructDef} {seen fs : List Field}
    (hseen : (seen.filterMap (F.traits.integerKey d)).Nodup) :
    clashOf F d seen fs = none ↔ ((seen ++ fs).filterMap (F.traits.integerKey d)).Nodup := by
  induction fs generalizing seen with
  | nil =>
    rw [List.append_nil]
    exact iff_of_true rfl hseen
  | cons f fs ih =>
    have hshift : seen ++ f :: fs = (seen ++ [f]) ++ fs := by
      rw [List.append_assoc]
      rfl
    rw [clashOf]
    cases hk : F.traits.integerKey d f with
    | none =>
      rw [hshift]
      refine ih ?_
      rw [List.filterMap_append, List.filterMap_cons_none hk]
      exact (List.append_nil _).symm ▸ hseen
    | some k =>
      simp only
      cases hfind : seen.find? (fun g => F.traits.integerKey d g = some k) with
      | some g =>
        have hkey := List.find?_some hfind
        have hmem : k ∈ seen.filterMap (F.traits.integerKey d) :=
          List.mem_filterMap.2 ⟨g, List.mem_of_find?_eq_some hfind, of_decide_eq_true hkey⟩
        refine iff_of_false (fun h => by cases h) fun hnodup => ?_
        rw [List.filterMap_append, List.filterMap_cons_some hk] at hnodup
        exact (List.nodup_append.1 hnodup).2.2 k hmem k List.mem_cons_self rfl
      | none =>
        rw [hshift]
        refine ih ?_
        rw [List.filterMap_append, List.filterMap_cons_some hk]
        refine List.nodup_append.2 ⟨hseen, List.nodup_singleton k, fun a ha b hb hab => ?_⟩
        obtain rfl := List.mem_singleton.1 hb
        obtain ⟨g, hg, hgk⟩ := List.mem_filterMap.1 ha
        exact List.find?_eq_none.1 hfind g hg (decide_eq_true (hab ▸ hgk))

theorem keyError_eq_none {d : StructDef} :
    keyError F d = none ↔ (d.fields.filterMap (F.traits.integerKey d)).Nodup := by
  rw [keyError, Option.map_eq_none_iff]
  exact clashOf_eq_none List.nodup_nil

theorem keyError_ne_nil {d : StructDef} {msg : Bytes} (h : keyError F d = some msg) : msg ≠ [] := by
  obtain ⟨x, -, rfl⟩ := Option.map_eq_some_iff.1 h
  exact fixedString_ne_nil (by decide) (.tail _ (.head _)) (by decide)

theorem ty_of_field {f : FieldMeta} {x : Field} (h : f.field = some x) : x.ty = f.type := by
  obtain ⟨o, -, hx⟩ := Option.bind_eq_some_iff.1 h
  cases hx
  rfl

/-- The audit of a struct, if `rec` covers the types of the members. -/
theorem Tells.struct
    (hrec : ∀ f t path, Tells F P dir b (rec f t path) fun S => Covered F P dir b S (f, t)) :
    Tells F P dir b (auditStruct F P rec id path) fun S => Entered F P dir b S id := by
  intro st st' hm hdir
  obtain ⟨ti, hti, hm⟩ := Option.bind_eq_some_iff.1 hm
  by_cases hok : ti.error = []
  · simp only [hok, ne_eq, not_true, if_false] at hm
    obtain ⟨d, hd, hm⟩ := Option.bind_eq_some_iff.1 hm
    cases hkeys : keyError F d with
    | some msg =>
      rw [hkeys] at hm
      exact (Tells.fail (keyError_ne_nil hkeys) : Tells F P dir b _ fun S => Entered F P dir b S id)
        st st' hm hdir
    | none =>
      rw [hkeys] at hm
      obtain ⟨bs, hbs, hm⟩ := Option.bind_eq_some_iff.1 hm
      by_cases htype : F.checkType (P.classes id) bs.fields = []
      · simp only [htype, not_true, if_false] at hm
        have hmembers : Tells F P dir b (auditMembers F P rec id path bs.fields) fun S =>
            ∀ f ∈ bs.fields, Checked F P dir id (fun x S => Covered F P dir b S (x.info, x.ty)) f
              S :=
          Tells.members (fun x S T h hx => hx.mono h) fun f _ x path hx =>
            ty_of_field hx ▸ hrec x.info x.ty path
        have hentered : Tells F P dir b (auditMembers F P rec id path bs.fields) fun S =>
          Entered F P dir b S id := by
          refine hmembers.imp fun S hS => ⟨⟨?_, ?_, ?_, ?_⟩, ?_⟩
          · exact (buildTypeInfo_ok_iff _).1 ⟨ti, hti, decide_eq_true hok⟩
          · intro d' hd'
            cases hd.symm.trans hd'
            exact keyError_eq_none.1 hkeys
          · intro bs' hbs'
            cases hbs.symm.trans hbs'
            exact htype
          · intro bs' hbs' g hg hskip
            cases hbs.symm.trans hbs'
            exact (hS g hg hskip).1
          · intro f y hy
            cases hy with
            | member hb hg hskip hx =>
              cases hbs.symm.trans hb
              obtain ⟨-, x, hx', hcovered⟩ := hS _ hg hskip
              cases hx'.symm.trans hx
              exact ty_of_field hx ▸ hcovered
        exact hentered st st' hm hdir
      · simp only [htype, not_false_eq_true, if_true] at hm
        exact (Tells.fail (List.append_ne_nil_of_right_ne_nil _ htype) : Tells F P dir b _ fun S =>
          Entered F P dir b S id) st st' hm hdir
  · simp only [hok, ne_eq, not_false_eq_true, if_true] at hm
    exact (Tells.fail hok : Tells F P dir b _ fun S => Entered F P dir b S id) st st' hm hdir

theorem knows_leave {visiting : List Nat} {st : AuditState}
    (hvisiting : st.visiting = visiting ++ [id]) {j : Nat} (hj : st.Knows j) :
    (st.leave id).Knows j := by
  rcases hj with hj | hj
  · rw [hvisiting] at hj
    rcases List.mem_append.1 hj with hj | hj
    · refine .inl ?_
      show j ∈ st.visiting.dropLast
      rw [hvisiting, List.dropLast_concat]
      exact hj
    · exact .inr (List.mem_append_right _ hj)
  · exact .inr (List.mem_append_left _ hj)

/-- The walk leaves a struct that it has entered. -/
theorem Tells.visit
    {f : VCodec.FieldMeta}
    (h : Tells F P dir b (auditStruct F P rec id path) fun S => Entered F P dir b S id) :
    Tells F P dir b (auditParts F P rec f path (.struct id)) fun S =>
      Covered F P dir b S (f, .struct id) := by
  intro st st' hm hdir
  rw [auditParts] at hm
  beta_reduce at hm
  by_cases hknown : id ∈ st.visiting ∨ id ∈ st.done
  · rw [if_pos hknown] at hm
    cases hm
    exact ⟨hdir, fun hok => ⟨hok, .refl st, .struct hknown⟩⟩
  · rw [if_neg hknown] at hm
    obtain ⟨st₁, hm₁, rfl⟩ := Option.map_eq_some_iff.1 hm
    obtain ⟨hdir₁, htells⟩ := h (st.enter id) st₁ hm₁ hdir
    refine ⟨hdir₁, fun hok => ?_⟩
    obtain ⟨herror, hgrown, hentered⟩ := htells hok
    have hvisiting : st₁.visiting = st.visiting ++ [id] := hgrown.visiting
    have hknows : ∀ j, st₁.Knows j → (st₁.leave id).Knows j := fun j hj => knows_leave hvisiting hj
    refine ⟨herror, ⟨?_, ?_, ?_⟩,
      .struct (.inr (List.mem_append_right _ (List.mem_singleton.2 rfl)))⟩
    · show st₁.visiting.dropLast = st.visiting
      rw [hvisiting, List.dropLast_concat]
    · exact fun j hj => List.mem_append_left _ (hgrown.done j hj)
    · intro j hj
      rcases List.mem_append.1 hj with hj | hj
      · exact (hgrown.entered j hj).imp_right (Entered.mono hknows)
      · obtain rfl := List.mem_singleton.1 hj
        exact .inr (hentered.mono hknows)

/-! ### Types -/

theorem Tells.bytes {f : VCodec.FieldMeta} {t : Ty} {Q : (Nat → Prop) → Prop}
    (hQ : Lowers F dir f t → (dir = .decode ∧ t.borrowsBytes = true → b) → ∀ S, Q S) :
    Tells F P dir b (auditBytes F P f t path) Q := by
  intro st st' hm hdir
  rw [auditBytes, hdir] at hm
  by_cases hlower : F.canLowerBytes f = false
  · rw [if_pos hlower] at hm
    exact Tells.fail (about_ne_nil t _ path) st st' hm hdir
  · rw [if_neg hlower] at hm
    have hlowers : F.canLowerBytes f = true := Bool.eq_true_of_not_eq_false hlower
    by_cases hborrows : dir = .decode ∧ t.borrowsBytes = true
    · rw [if_pos hborrows] at hm
      by_cases hformat : F.bytesBorrowable = true
      · rw [if_pos hformat] at hm
        exact Tells.borrow (fun hb => hQ ⟨hlowers, fun _ _ => hformat⟩ fun _ =>
          hb ⟨hborrows.1, rfl⟩) st st' hm hdir
      · rw [if_neg hformat] at hm
        exact Tells.fail (about_ne_nil t _ path) st st' hm hdir
    · rw [if_neg hborrows] at hm
      exact Tells.pure (hQ ⟨hlowers, fun h h' => absurd ⟨h, h'⟩ hborrows⟩ fun h =>
        absurd h hborrows) st st' hm hdir

theorem noCodec_ne_nil (t : Ty) (path : Bytes) : path ++ noCodec P t ≠ [] := by
  unfold noCodec
  intro h
  have hnil := (List.append_eq_nil_iff.1 h).2
  exact absurd (List.append_eq_nil_iff.1 hnil).2 (by decide)

/-- The audit of a type, if `rec` covers its parts. -/
theorem Tells.parts
    (hrec : ∀ f t path, Tells F P dir b (rec f t path) fun S => Covered F P dir b S (f, t))
    (f : VCodec.FieldMeta) (t : Ty) :
    Tells F P dir b (auditParts F P rec f path t) fun S => Covered F P dir b S (f, t) := by
  have hleaf : ∀ {t : Ty}, Admissible F P dir b (f, t) → (∀ y, ¬ Part F P dir (f, t) y) →
    ∀ S, Covered F P dir b S (f, t) :=
    fun ha hp S => .other ha fun y hy => absurd hy (hp y)
  have hplain : ∀ {x : Node}, Acceptable F P dir x → borrowsInput x.2 = false →
    Admissible F P dir b x :=
    fun ha hno => ⟨ha, fun h => absurd (hno.symm.trans h.2) Bool.false_ne_true⟩
  cases t with
  | bool => exact Tells.pure (hleaf (hplain trivial rfl) fun y hy => by cases hy)
  | char => exact Tells.pure (hleaf (hplain trivial rfl) fun y hy => by cases hy)
  | int k => exact Tells.pure (hleaf (hplain trivial rfl) fun y hy => by cases hy)
  | float => exact Tells.pure (hleaf (hplain trivial rfl) fun y hy => by cases hy)
  | double => exact Tells.pure (hleaf (hplain trivial rfl) fun y hy => by cases hy)
  | enum e => exact Tells.pure (hleaf (hplain trivial rfl) fun y hy => by cases hy)
  | string view => exact Tells.borrow fun hb => hleaf ⟨trivial, hb⟩ fun y hy => by cases hy
  | optional t =>
    refine (hrec f t path).imp fun S hS => .other (hplain trivial rfl) fun y hy => ?_
    cases hy
    exact hS
  | variant alts =>
    intro st st' hm hdir
    rw [auditParts] at hm
    by_cases htag : f.tagKey = none
    · simp only [htag, if_true] at hm
      exact (Tells.fail (about_ne_nil _ _ path) : Tells F P dir b _ fun S =>
        Covered F P dir b S (f, .variant alts)) st st' hm hdir
    · simp only [htag, if_false] at hm
      have hall := Tells.foldlM (fun a S T hST ha => ha.mono hST) fun a (_ : a ∈ alts) =>
        hrec noField a.2 path
      have hcovered :
        Tells F P dir b (fun st => alts.foldlM (fun st a => rec noField a.2 path st) st) fun S =>
        Covered F P dir b S (f, .variant alts) := by
        refine hall.imp fun S hS => .other (hplain htag rfl) fun y hy => ?_
        cases hy with
        | alternative ha => exact hS _ ha
      exact hcovered st st' hm hdir
  | byteRange r => exact Tells.bytes fun hlowers hb => hleaf ⟨hlowers, hb⟩ fun y hy => by cases hy
  | map kind k t =>
    intro st st' hm hdir
    rw [auditParts] at hm
    by_cases hkey : F.canLowerKey f k = false
    · simp only [hkey, if_true] at hm
      exact (Tells.fail (about_ne_nil _ _ path) : Tells F P dir b _ fun S =>
        Covered F P dir b S (f, .map kind k t)) st st' hm hdir
    · simp only [hkey] at hm
      have hcovered : Tells F P dir b (fun st => (some (st.borrow (textKey k))).bind (rec f t path))
        fun S => Covered F P dir b S (f, .map kind k t) := by
        have hborrow : Tells F P dir b (fun st => some (st.borrow (textKey k))) fun _ => dir =
          .decode ∧ textKey k = true → b :=
          Tells.borrow fun hb _ => hb
        have hboth := Tells.bind (fun _ _ _ h => h) hborrow (hrec f t path)
        refine hboth.imp fun S hS => .other ⟨Bool.eq_true_of_not_eq_false hkey, hS.1⟩ fun y hy => ?_
        cases hy
        exact hS.2
      exact hcovered st st' hm hdir
  | tuple ts =>
    have hall := Tells.foldlM (fun t S T hST ht => ht.mono hST) fun t (_ : t ∈ ts) => hrec f t path
    refine hall.imp fun S hS => .other (hplain trivial rfl) fun y hy => ?_
    cases hy with
    | tuple ht => exact hS _ ht
  | array n t =>
    rw [auditParts]
    by_cases hbytes : F.traits.isBytes f (.array n t) = true
    · rw [if_pos hbytes]
      refine Tells.bytes fun hlowers hb => hleaf ⟨fun _ => hlowers, hb⟩ fun y hy => ?_
      cases hy with
      | array hno => rw [hbytes] at hno; cases hno
    · rw [if_neg hbytes]
      refine (hrec f t path).imp fun S hS => .other (hplain (fun h => absurd h hbytes) rfl)
        fun y hy => ?_
      cases hy
      exact hS
  | seq kind t =>
    rw [auditParts]
    by_cases hbytes : F.traits.isBytes f (.seq kind t) = true
    · rw [if_pos hbytes]
      refine Tells.bytes fun hlowers hb => hleaf ⟨fun _ => hlowers, hb⟩ fun y hy => ?_
      cases hy with
      | seq hno => rw [hbytes] at hno; cases hno
    · rw [if_neg hbytes]
      refine (hrec f t path).imp fun S hS => .other (hplain (fun h => absurd h hbytes) rfl)
        fun y hy => ?_
      cases hy
      exact hS
  | struct id => exact (Tells.struct hrec).visit
  | time d =>
    intro st st' hm hdir
    rw [auditParts] at hm
    by_cases hcodec : F.traits.timeCodec = true
    · simp only [hcodec, if_true] at hm
      exact Tells.pure (hleaf (hplain (x := (f, .time d)) hcodec rfl) fun y hy => by cases hy) st
        st' hm hdir
    · simp only [hcodec] at hm
      exact (Tells.fail (noCodec_ne_nil _ path) : Tells F P dir b _ fun S =>
        Covered F P dir b S (f, .time d)) st st' hm hdir

theorem Tells.type (n : Nat) (f : VCodec.FieldMeta) (t : Ty) (path : Bytes) :
    Tells F P dir b (auditType F P n f t path) fun S => Covered F P dir b S (f, t) := by
  induction n generalizing f t path with
  | zero =>
    intro st st' hm
    cases hm
  | succ n ih => exact (Tells.parts ih f t).unlessFailed

/-! ### All that is reached -/

/-- Where every known struct is entered, what is covered is acceptable, and so are its parts. -/
theorem admissible_of_covered
    (hS : ∀ id, S id → Entered F P dir b S id) {x y : Node} (hx : Covered F P dir b S x)
    (h : ReflTransGen (Part F P dir) x y) : Admissible F P dir b y := by
  have hcovered : Covered F P dir b S y := by
    induction h with
    | refl => exact hx
    | tail _ hpart ih =>
      cases ih with
      | struct hs => exact (hS _ hs).parts _ _ hpart
      | other _ hp => exact hp _ hpart
  cases hcovered with
  | struct hs => exact ⟨(hS _ hs).sound, fun h => by cases h.2⟩
  | other ha _ => exact ha

theorem admissible_of_audit
    {n : Nat} {t : Ty} {path : Bytes} {st : AuditState}
    (h : auditType F P n noField t path { dir } = some st)
    (hok : st.Clean b) {y : Node} (hy : ReflTransGen (Part F P dir) (noField, t) y) :
    Admissible F P dir b y := by
  have htype : Tells F P dir b (auditType F P n noField t path) fun S =>
    Covered F P dir b S (noField, t) := Tells.type n noField t path
  obtain ⟨-, htells⟩ := htype { dir } st h rfl
  obtain ⟨-, hgrown, hcovered⟩ := htells hok
  refine admissible_of_covered (fun id hid => ?_) hcovered hy
  rcases hid with hid | hid
  · rw [hgrown.visiting] at hid
    cases hid
  · exact (hgrown.entered id hid).resolve_left List.not_mem_nil

/-! ### Audits that pass -/

theorem Passes.foldlM {α : Type} {m : α → Audit} {xs : List α} (h : ∀ x ∈ xs, Passes dir b (m x)) :
    Passes dir b fun st => xs.foldlM (fun st x => m x st) st := by
  induction xs with
  | nil =>
    intro st st' hm hclear
    cases hm
    exact hclear
  | cons x xs ih =>
    intro st st' hm hclear
    simp only [List.foldlM_cons] at hm
    obtain ⟨st₁, hx, hrest⟩ := Option.bind_eq_some_iff.1 hm
    exact ih (fun y hy => h y (List.mem_cons_of_mem _ hy)) st₁ st' hrest
      (h x List.mem_cons_self st st₁ hx hclear)

theorem Passes.unlessFailed {m : Audit} (h : Passes dir b m) :
    Passes dir b fun st => if st.failed then some st else m st := by
  intro st st' hm hclear
  have hno : st.failed = false := decide_eq_false (not_not.2 hclear.2.1)
  simp only [hno] at hm
  exact h st st' hm hclear

theorem AuditState.Clear.borrow
    {st : AuditState} (h : st.Clear dir b) {v : Bool} (hv : dir = .decode ∧ v = true → b) :
    (st.borrow v).Clear dir b :=
  ⟨h.1, h.2.1, fun hb => ((AuditState.borrow_borrows h.1).1 hb).elim h.2.2 hv⟩

theorem Passes.bytes {f : VCodec.FieldMeta} {t : Ty} (h : Lowers F dir f t)
    (hb : dir = .decode ∧ t.borrowsBytes = true → b) : Passes dir b (auditBytes F P f t path) := by
  intro st st' hm hclear
  rw [auditBytes, hclear.1, if_neg (by rw [h.1]; exact Bool.true_eq_false_eq_False)] at hm
  by_cases hborrows : dir = .decode ∧ t.borrowsBytes = true
  · rw [if_pos hborrows, if_pos (h.2 hborrows.1 hborrows.2)] at hm
    cases hm
    exact hclear.borrow fun _ => hb hborrows
  · rw [if_neg hborrows] at hm
    cases hm
    exact hclear

theorem Passes.field {f : FieldMeta} (hfault : f.skipped dir = false → memberFault F P id f = none)
    (hrec : f.skipped dir = false → ∀ x, f.field = some x →
      Passes dir b (rec x.info f.type (path ++ str "::" ++ f.info.identifier))) :
    Passes dir b (auditField F P rec id path f) := by
  intro st st' hm hclear
  rw [auditField, hclear.1] at hm
  by_cases hskip : f.skipped dir = true
  · rw [if_pos hskip] at hm
    cases hm
    exact hclear
  · rw [if_neg hskip, hfault (Bool.eq_false_of_not_eq_true hskip)] at hm
    obtain ⟨x, hx, hm⟩ := Option.bind_eq_some_iff.1 hm
    exact hrec (Bool.eq_false_of_not_eq_true hskip) x hx st st' hm hclear

theorem Passes.struct {f : VCodec.FieldMeta} (h : SoundStruct F P dir id)
    (hrec : ∀ y path, Part F P dir (f, .struct id) y → Passes dir b (rec y.1 y.2 path)) :
    Passes dir b (auditStruct F P rec id path) := by
  intro st st' hm hclear
  obtain ⟨ti, hti, hm⟩ := Option.bind_eq_some_iff.1 hm
  have hok : ti.error = [] := of_decide_eq_true ((ok_iff hti).2 h.accepted)
  simp only [hok, ne_eq, not_true, if_false] at hm
  obtain ⟨d, hd, hm⟩ := Option.bind_eq_some_iff.1 hm
  rw [keyError_eq_none.2 (h.keys d hd)] at hm
  obtain ⟨bs, hbs, hm⟩ := Option.bind_eq_some_iff.1 hm
  simp only [h.type bs hbs, not_true, if_false] at hm
  have hmembers : Passes dir b (auditMembers F P rec id path bs.fields) :=
    Passes.foldlM fun g hg => (Passes.field (fun hskip => h.members bs hbs g hg hskip)
      fun hskip x hx => hrec (x.info, g.type) _ (.member hbs hg hskip hx)).unlessFailed
  exact hmembers st st' hm hclear

theorem Passes.parts {f : VCodec.FieldMeta} {t : Ty} (h : Admissible F P dir b (f, t))
    (hrec : ∀ y path, Part F P dir (f, t) y → Passes dir b (rec y.1 y.2 path)) :
    Passes dir b (auditParts F P rec f path t) := by
  have hpure : Passes dir b some := by
    intro st st' hm hclear
    cases hm
    exact hclear
  cases t with
  | bool => exact hpure
  | char => exact hpure
  | int k => exact hpure
  | float => exact hpure
  | double => exact hpure
  | enum e => exact hpure
  | string view =>
    intro st st' hm hclear
    cases hm
    exact hclear.borrow h.borrows
  | optional t => exact hrec (f, t) path .optional
  | variant alts =>
    have htag : f.tagKey ≠ none := h.acceptable
    intro st st' hm hclear
    rw [auditParts] at hm
    simp only [htag, if_false] at hm
    have hall : Passes dir b fun st => alts.foldlM (fun st a => rec noField a.2 path st) st :=
      Passes.foldlM fun a ha => hrec (noField, a.2) path (.alternative ha)
    exact hall st st' hm hclear
  | byteRange r => exact Passes.bytes h.acceptable h.borrows
  | map kind k t =>
    have hkey : F.canLowerKey f k = true := h.acceptable
    intro st st' hm hclear
    rw [auditParts] at hm
    simp only [hkey] at hm
    exact hrec (f, t) path .map (st.borrow (textKey k)) st' hm (hclear.borrow h.borrows)
  | tuple ts => exact Passes.foldlM fun t ht => hrec (f, t) path (.tuple ht)
  | array n t =>
    rw [auditParts]
    by_cases hbytes : F.traits.isBytes f (.array n t) = true
    · rw [if_pos hbytes]
      exact Passes.bytes (h.acceptable hbytes) h.borrows
    · rw [if_neg hbytes]
      exact hrec (f, t) path (.array (Bool.eq_false_of_not_eq_true hbytes))
  | seq kind t =>
    rw [auditParts]
    by_cases hbytes : F.traits.isBytes f (.seq kind t) = true
    · rw [if_pos hbytes]
      exact Passes.bytes (h.acceptable hbytes) h.borrows
    · rw [if_neg hbytes]
      exact hrec (f, t) path (.seq (Bool.eq_false_of_not_eq_true hbytes))
  | struct id =>
    intro st st' hm hclear
    rw [auditParts] at hm
    beta_reduce at hm
    by_cases hknown : id ∈ st.visiting ∨ id ∈ st.done
    · rw [if_pos hknown] at hm
      cases hm
      exact hclear
    · rw [if_neg hknown] at hm
      obtain ⟨st₁, hm₁, rfl⟩ := Option.map_eq_some_iff.1 hm
      exact Passes.struct h.acceptable hrec (st.enter id) st₁ hm₁ hclear
  | time d =>
    have hcodec : F.traits.timeCodec = true := h.acceptable
    intro st st' hm hclear
    rw [auditParts] at hm
    simp only [hcodec, if_true] at hm
    cases hm
    exact hclear

theorem Passes.type {n : Nat} {f : VCodec.FieldMeta} {t : Ty}
    (h : ∀ y, ReflTransGen (Part F P dir) (f, t) y → Admissible F P dir b y) :
    Passes dir b (auditType F P n f t path) := by
  induction n generalizing f t path with
  | zero =>
    intro st st' hm
    cases hm
  | succ n ih =>
    exact (Passes.parts (h _ .refl) fun y path hy => ih fun z hz => h z (.head hy hz)).unlessFailed

/-! ### Audits that end -/

section

variable {ids : List Nat} {k : Nat}

/-- How many of the structs are not known. -/
def unknown (ids : List Nat) (st : AuditState) : Nat :=
  ids.countP fun id => ! (st.visiting.contains id || st.done.contains id)

/-- With at most `k` unknown structs left, the audit comes to an end. -/
def Halts (dir : Direction) (ids : List Nat) (k : Nat) (m : Audit) : Prop :=
  ∀ st, st.Clear dir True → unknown ids st ≤ k → ∃ st', m st = some st' ∧ unknown ids st' ≤ k ∧
    st'.visiting = st.visiting

theorem unknown_le {st st' : AuditState} (h : ∀ id, st.Knows id → st'.Knows id) :
    unknown ids st' ≤ unknown ids st := by
  refine List.countP_mono_left fun id _ hid => ?_
  rw [Bool.not_eq_true', Bool.or_eq_false_iff] at hid ⊢
  simp only [List.contains_eq_mem, decide_eq_false_iff_not] at hid ⊢
  exact ⟨fun hin => not_or.2 hid (h id (.inl hin)), fun hin => not_or.2 hid (h id (.inr hin))⟩

/-- A struct that is entered is known. -/
theorem unknown_enter {id : Nat} (hid : id ∈ ids) {st : AuditState}
    (hno : ¬ (id ∈ st.visiting ∨ id ∈ st.done)) :
    unknown ids (st.enter id) < unknown ids st := by
  obtain ⟨xs, ys, rfl⟩ := List.append_of_mem hid
  have hknows : ∀ j, st.Knows j → (st.enter id).Knows j :=
    fun j hj => hj.imp_left fun hin => List.mem_append_left _ hin
  have hxs : unknown xs (st.enter id) ≤ unknown xs st := unknown_le hknows
  have hys : unknown ys (st.enter id) ≤ unknown ys st := unknown_le hknows
  have hbefore : (! (st.visiting.contains id || st.done.contains id)) = true := by
    rw [not_or] at hno
    simp [hno.1, hno.2]
  have hafter : (! ((st.enter id).visiting.contains id || (st.enter id).done.contains id)) =
    false := by
    simp [AuditState.enter]
  have happend : ∀ st, unknown (xs ++ id :: ys) st = unknown xs st + unknown (id :: ys) st :=
    fun _ => List.countP_append
  have hold : unknown (id :: ys) st = unknown ys st + 1 := List.countP_cons_of_pos hbefore
  have hnew : unknown (id :: ys) (st.enter id) = unknown ys (st.enter id) :=
    List.countP_cons_of_neg (by rw [hafter]; exact Bool.false_ne_true)
  rw [happend, happend, hold, hnew]
  omega

theorem Halts.pure : Halts dir ids k some := fun st _ hk => ⟨st, rfl, hk, rfl⟩

theorem Halts.borrow (b : Bool) : Halts dir ids k fun st => some (st.borrow b) :=
  fun _ _ hk => ⟨_, rfl, hk, rfl⟩

theorem Halts.unlessFailed {m : Audit} (h : Halts dir ids k m) :
    Halts dir ids k fun st => if st.failed then some st else m st := by
  intro st hclear hk
  have hno : st.failed = false := decide_eq_false (not_not.2 hclear.2.1)
  simp only [hno]
  exact h st hclear hk

theorem Halts.foldlM {α : Type} {m : α → Audit} {xs : List α} (hp : ∀ x ∈ xs, Passes dir True (m x))
    (h : ∀ x ∈ xs, Halts dir ids k (m x)) :
    Halts dir ids k fun st => xs.foldlM (fun st x => m x st) st := by
  induction xs with
  | nil => exact Halts.pure
  | cons x xs ih =>
    intro st hclear hk
    obtain ⟨st₁, hx, hk₁, hvisiting₁⟩ := h x List.mem_cons_self st hclear hk
    obtain ⟨st', hxs, hk', hvisiting⟩ :=
      ih (fun y hy => hp y (List.mem_cons_of_mem _ hy))
      (fun y hy => h y (List.mem_cons_of_mem _ hy))
      st₁ (hp x List.mem_cons_self st st₁ hx hclear) hk₁
    refine ⟨st', ?_, hk', hvisiting.trans hvisiting₁⟩
    simp only [List.foldlM_cons, hx]
    exact hxs

theorem Halts.bytes {f : VCodec.FieldMeta} {t : Ty} (h : Lowers F dir f t) :
    Halts dir ids k (auditBytes F P f t path) := by
  intro st hclear hk
  rw [auditBytes, hclear.1, if_neg (by rw [h.1]; exact Bool.true_eq_false_eq_False)]
  by_cases hborrows : dir = .decode ∧ t.borrowsBytes = true
  · rw [if_pos hborrows, if_pos (h.2 hborrows.1 hborrows.2)]
    exact ⟨_, rfl, hk, rfl⟩
  · rw [if_neg hborrows]
    exact ⟨_, rfl, hk, rfl⟩

theorem Halts.field {f : FieldMeta} (hfault : f.skipped dir = false → memberFault F P id f = none)
    (hrec : f.skipped dir = false →
      ∃ x, f.field = some x ∧
        Halts dir ids k (rec x.info f.type (path ++ str "::" ++ f.info.identifier))) :
    Halts dir ids k (auditField F P rec id path f) := by
  intro st hclear hk
  rw [auditField, hclear.1]
  by_cases hskip : f.skipped dir = true
  · rw [if_pos hskip]
    exact ⟨st, rfl, hk, rfl⟩
  · have hno := Bool.eq_false_of_not_eq_true hskip
    obtain ⟨x, hx, hhalts⟩ := hrec hno
    rw [if_neg hskip, hfault hno, hx]
    exact hhalts st hclear hk

theorem Halts.struct {f : VCodec.FieldMeta} (h : SoundStruct F P dir id)
    (hpass : ∀ y path, Part F P dir (f, .struct id) y → Passes dir True (rec y.1 y.2 path))
    (hrec : ∀ y path, Part F P dir (f, .struct id) y → Halts dir ids k (rec y.1 y.2 path)) :
    Halts dir ids k (auditStruct F P rec id path) := by
  intro st hclear hk
  obtain ⟨ti, hti, hok⟩ := (buildTypeInfo_ok_iff _).2 h.accepted
  obtain ⟨d, hd⟩ := exists_structDef h.accepted
  obtain ⟨bs, hbs, -⟩ := Option.bind_eq_some_iff.1 hti
  have herror : ti.error = [] := of_decide_eq_true hok
  have hfields : bs.fields = fieldsOf (P.classes id) := (runBuild_spec hbs).1
  have hmembers : Halts dir ids k (auditMembers F P rec id path bs.fields) := by
    refine Halts.foldlM (fun g hg => (Passes.field (fun hskip => h.members bs hbs g hg hskip)
      fun hskip x hx => hpass (x.info, g.type) _ (.member hbs hg hskip hx)).unlessFailed)
        fun g hg => ?_
    refine (Halts.field (fun hskip => h.members bs hbs g hg hskip) fun hskip => ?_).unlessFailed
    obtain ⟨x, hx⟩ := exists_field h.accepted.sound (hfields ▸ hg)
    exact ⟨x, hx, hrec (x.info, g.type) _ (.member hbs hg hskip hx)⟩
  unfold auditStruct
  simp only [hti, hd, hbs, herror, keyError_eq_none.2 (h.keys d hd), h.type bs hbs, ne_eq, not_true,
    if_false, Option.bind_some]
  exact hmembers st hclear hk

/-- A struct that the walk enters is one unknown struct less. -/
theorem Halts.visit {f : VCodec.FieldMeta} (hid : id ∈ ids)
    (h : ∀ j, j < k → Halts dir ids j (auditStruct F P rec id path)) :
    Halts dir ids k (auditParts F P rec f path (.struct id)) := by
  intro st hclear hk
  rw [auditParts]
  beta_reduce
  by_cases hknown : id ∈ st.visiting ∨ id ∈ st.done
  · rw [if_pos hknown]
    exact ⟨st, rfl, hk, rfl⟩
  · rw [if_neg hknown]
    have hless := unknown_enter hid hknown
    obtain ⟨st₁, hm, hk₁, hvisiting⟩ :=
      h _ (Nat.lt_of_lt_of_le hless hk) (st.enter id) hclear (Nat.le_refl _)
    have hvisiting₁ : st₁.visiting = st.visiting ++ [id] := hvisiting
    refine ⟨st₁.leave id, by rw [hm]; rfl, ?_, ?_⟩
    · refine Nat.le_trans (unknown_le fun j hj => ?_)
        (Nat.le_trans hk₁ (Nat.le_trans (Nat.le_of_lt hless) hk))
      exact knows_leave hvisiting₁ hj
    · show st₁.visiting.dropLast = st.visiting
      rw [hvisiting₁, List.dropLast_concat]

theorem Part.sizeOf_lt {f : VCodec.FieldMeta} {t : Ty} {y : Node} (h : Part F P dir (f, t) y)
    (hno : ∀ id, t ≠ .struct id) :
    sizeOf y.2 < sizeOf t := by
  cases h with
  | alternative ha =>
    have hlt := List.sizeOf_lt_of_mem ha
    simp only [Ty.variant.sizeOf_spec]
    rename_i a
    obtain ⟨name, u⟩ := a
    simp only [Prod.mk.sizeOf_spec] at hlt ⊢
    omega
  | tuple ht =>
    have hlt := List.sizeOf_lt_of_mem ht
    simp only [Ty.tuple.sizeOf_spec]
    omega
  | member hb hg hskip hx => exact absurd rfl (hno _)
  | optional =>
    simp only [Ty.optional.sizeOf_spec]
    omega
  | map =>
    simp only [Ty.map.sizeOf_spec]
    omega
  | array _ =>
    simp only [Ty.array.sizeOf_spec]
    omega
  | seq _ =>
    simp only [Ty.seq.sizeOf_spec]
    omega

theorem Halts.parts {f : VCodec.FieldMeta} {t : Ty} (hno : ∀ id, t ≠ .struct id)
    (h : Acceptable F P dir (f, t))
    (hpass : ∀ y path, Part F P dir (f, t) y → Passes dir True (rec y.1 y.2 path))
    (hrec : ∀ y path, Part F P dir (f, t) y → Halts dir ids k (rec y.1 y.2 path)) :
    Halts dir ids k (auditParts F P rec f path t) := by
  cases t with
  | bool => exact Halts.pure
  | char => exact Halts.pure
  | int k => exact Halts.pure
  | float => exact Halts.pure
  | double => exact Halts.pure
  | enum e => exact Halts.pure
  | string view => exact Halts.borrow view
  | optional t => exact hrec (f, t) path .optional
  | variant alts =>
    have htag : f.tagKey ≠ none := h
    rw [auditParts]
    simp only [htag, if_false]
    exact Halts.foldlM (fun a ha => hpass (noField, a.2) path (.alternative ha)) fun a ha =>
      hrec (noField, a.2) path (.alternative ha)
  | byteRange r => exact Halts.bytes h
  | map kind k t =>
    have hkey : F.canLowerKey f k = true := h
    intro st hclear hk
    rw [auditParts]
    simp only [hkey]
    exact hrec (f, t) path .map (st.borrow (textKey k)) (hclear.borrow fun _ => trivial) hk
  | tuple ts =>
    exact Halts.foldlM (fun t ht => hpass (f, t) path (.tuple ht)) fun t ht =>
      hrec (f, t) path (.tuple ht)
  | array n t =>
    rw [auditParts]
    by_cases hbytes : F.traits.isBytes f (.array n t) = true
    · rw [if_pos hbytes]
      exact Halts.bytes (h hbytes)
    · rw [if_neg hbytes]
      exact hrec (f, t) path (.array (Bool.eq_false_of_not_eq_true hbytes))
  | seq kind t =>
    rw [auditParts]
    by_cases hbytes : F.traits.isBytes f (.seq kind t) = true
    · rw [if_pos hbytes]
      exact Halts.bytes (h hbytes)
    · rw [if_neg hbytes]
      exact hrec (f, t) path (.seq (Bool.eq_false_of_not_eq_true hbytes))
  | struct id => exact absurd rfl (hno id)
  | time d =>
    have hcodec : F.traits.timeCodec = true := h
    rw [auditParts]
    simp only [hcodec, if_true]
    exact Halts.pure

/-- The types of the members of the structs are no larger than `H`. -/
def MembersBelow (P : Types) (ids : List Nat) (H : Nat) : Prop :=
  ∀ id ∈ ids, ∀ bs, runBuild (P.classes id) = some bs → ∀ g ∈ bs.fields, sizeOf g.type ≤ H

theorem exists_membersBelow (P : Types) (ids : List Nat) : ∃ H, MembersBelow P ids H := by
  have hfields : ∀ fs : List FieldMeta, ∃ H, ∀ g ∈ fs, sizeOf g.type ≤ H := by
    intro fs
    induction fs with
    | nil => exact ⟨0, fun _ h => absurd h List.not_mem_nil⟩
    | cons g fs ih =>
      obtain ⟨H, hH⟩ := ih
      exact ⟨max (sizeOf g.type) H,
        List.forall_mem_cons.2 ⟨Nat.le_max_left _ _,
        fun x hx => Nat.le_trans (hH x hx) (Nat.le_max_right _ _)⟩⟩
  induction ids with
  | nil => exact ⟨0, fun _ h => absurd h List.not_mem_nil⟩
  | cons id ids ih =>
    obtain ⟨H, hH⟩ := ih
    obtain ⟨H', hH'⟩ : ∃ H', ∀ bs, runBuild (P.classes id) = some bs →
      ∀ g ∈ bs.fields, sizeOf g.type ≤ H' := by
      cases hbuild : runBuild (P.classes id) with
      | none => exact ⟨0, fun bs hbs => by cases hbs⟩
      | some bs =>
        obtain ⟨H', hH'⟩ := hfields bs.fields
        refine ⟨H', fun bs' hbs' => ?_⟩
        cases hbs'
        exact hH'
    refine ⟨max H' H, List.forall_mem_cons.2 ⟨fun bs hbs g hg => ?_, fun j hj bs hbs g hg => ?_⟩⟩
    · exact Nat.le_trans (hH' bs hbs g hg) (Nat.le_max_left _ _)
    · exact Nat.le_trans (hH j hj bs hbs g hg) (Nat.le_max_right _ _)

theorem Halts.type {H n : Nat} (hH : MembersBelow P ids H) {f : VCodec.FieldMeta} {t : Ty}
    (hall : ∀ y, ReflTransGen (Part F P dir) (f, t) y → Acceptable F P dir y)
    (hids : ∀ g id, ReflTransGen (Part F P dir) (f, t) (g, .struct id) → id ∈ ids)
    (hn : sizeOf t + k * (H + 1) ≤ n) :
    Halts dir ids k (auditType F P n f t path) := by
  induction n generalizing f t path k with
  | zero =>
    have hpos : 0 < sizeOf t := by cases t <;> simp
    omega
  | succ n ih =>
    have hpass : ∀ y path, Part F P dir (f, t) y → Passes dir True (auditType F P n y.1 y.2 path) :=
      fun y path hy => Passes.type fun z hz => ⟨hall z (.head hy hz), fun _ => trivial⟩
    refine Halts.unlessFailed ?_
    by_cases hstruct : ∃ id, t = .struct id
    · obtain ⟨id, rfl⟩ := hstruct
      have hid := hids f id .refl
      refine Halts.visit hid fun j hj => Halts.struct (hall _ .refl) hpass fun y path hy => ?_
      refine ih (fun z hz => hall z (.head hy hz)) (fun g id hz => hids g id (.head hy hz)) ?_
      have hsize : sizeOf y.2 ≤ H := by
        cases hy with
        | member hb hg hskip hx => exact hH id hid _ hb _ hg
      have hmul : (j + 1) * (H + 1) ≤ k * (H + 1) := Nat.mul_le_mul_right _ hj
      rw [Nat.succ_mul] at hmul
      simp only [Ty.struct.sizeOf_spec] at hn
      omega
    · have hno : ∀ id, t ≠ .struct id := fun id heq => hstruct ⟨id, heq⟩
      refine Halts.parts hno (hall _ .refl) hpass fun y path hy => ?_
      refine ih (fun z hz => hall z (.head hy hz)) (fun g id hz => hids g id (.head hy hz)) ?_
      have hlt := hy.sizeOf_lt hno
      omega

/-- If all that is reached is acceptable, and there are finitely many structs, the audit comes to an
end. -/
theorem exists_audit
    {t : Ty} (hall : ∀ y, ReflTransGen (Part F P dir) (noField, t) y → Acceptable F P dir y)
    (hids : ∀ g id, ReflTransGen (Part F P dir) (noField, t) (g, .struct id) → id ∈ ids) :
    ∃ n, ∀ m ≥ n, ∃ r, audit F P m dir t = some r := by
  obtain ⟨H, hH⟩ := exists_membersBelow P ids
  refine ⟨sizeOf t + ids.length * (H + 1), fun m hm => ?_⟩
  have hhalts : Halts dir ids ids.length (auditType F P m noField t (P.typeName t)) :=
    Halts.type hH hall hids hm
  obtain ⟨st, hst, -⟩ := hhalts { dir } ⟨rfl, rfl, fun _ => trivial⟩ List.countP_le_length
  exact ⟨_, by rw [audit, hst]; rfl⟩

end

end

end VCodec.Schema
