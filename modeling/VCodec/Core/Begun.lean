import VCodec.Core.Leaves

/-!
# What a failing decoder leaves

A scalar, a string or an enumerator is assigned last. An optional-like is emplaced before its value
is decoded, and a variant before the payload of its alternative is.
-/

namespace VCodec

open D
open Run (final)

variable {σ S M : Type}

/-! ### What a member holds -/

/-- An optional-like holds a value or not, and a variant an alternative. -/
inductive Holding
  | value
  | alternative (i : Nat)
  deriving DecidableEq, Repr

def Val.holding : Val → Option Holding
  | .some _ => .some Holding.value
  | .variant i _ => .some (Holding.alternative i)
  | _ => none

def Ty.atomic : Ty → Bool
  | .bool | .char | .int _ | .float | .double | .enum _ | .string _ => true
  | _ => false

/-- A scalar, a string, an enumeration, an optional-like or a variant. -/
def Ty.replaced : Ty → Bool
  | .optional _ | .variant _ => true
  | t => t.atomic

section

variable (env : Env) (r : Reader σ S M)

/-- The first pass over the value of a variant: the alternative that its discriminator names. -/
def firstPass (fuel : Nat) (f : FieldMeta) (alts : List (Bytes × Ty)) : D σ (Nat × Ty) :=
  match f.tagKey with
  | none => throw .rejected
  | some tagKey => do
    let off ← call r.offset
    let c ← call r.expectMap
    let tag ← findTag r tagKey fuel c
    chooseAlternative env r alts tagKey off tag

/-- The object that the decoder of a member begins: a value if no null is ahead, or the alternative
that the first pass finds. -/
def begun : Nat → FieldMeta → Ty → Build σ → Option Holding
  | _, _, .optional _, b =>
    match r.peek b.reader with
    | .ok k _ => if k = .null then none else some .value
    | .error _ _ => none
  | fuel + 1, f, .variant alts, b =>
    match (do
      decodeTags r f (r.traits.expectedTags env f (.variant alts))
      firstPass env r fuel f alts : D σ (Nat × Ty)) b with
    | .ok (i, _) _ => some (.alternative i)
    | .error _ _ => none
  | _, _, _, _ => none

end

variable {env : Env} {r : Reader σ S M} {R : Val → Val → Prop}

/-! ### Scalars, strings and enumerators -/

theorem leaves_decodeInt (hR : Frame R) (f : FieldMeta) (k : IntTy) :
    Leaves R (decodeInt env r f k) := by
  refine .ite (fun _ => ?_) fun _ => ?_
  · refine .bind hR (.call hR _) fun off => .bind hR (.mapError (.call hR _)) fun i => ?_
    exact .ite (fun _ => .fail hR _) fun _ => .pure hR _
  · refine .bind hR (.call hR _) fun off => .bind hR (.mapError (.call hR _)) fun u => ?_
    exact .ite (fun _ => .fail hR _) fun _ => .pure hR _

theorem failsLeaving_decodeEnum (f : FieldMeta) (e : EnumDef) :
    FailsLeaving (fun v v' => v' = v) (decodeEnum env r f e) := by
  refine .bind (.call frame_eq _) (fun off => .ite (fun _ => ?_) fun _ => ?_) frame_eq
  · refine .bind (leaves_decodeInt frame_eq f _) (fun raw => ?_) frame_eq
    cases e.enumerators.find? (fun en => en.value = raw ∧ ¬ en.skipped) with
    | none => exact .of_leaves (.fail frame_eq _)
    | some en => exact .setOut _
  · refine .bind (.call frame_eq _) (fun t => ?_) frame_eq
    cases e.find t.text with
    | none => exact .of_leaves (.fail frame_eq _)
    | some en => exact .setOut _

theorem failsLeaving_decodeString (f : FieldMeta) (view : Bool) :
    FailsLeaving (fun v v' => v' = v) (decodeString env r f view) := by
  refine .bind (.call frame_eq _) (fun off => .bind (.call frame_eq _) (fun t => ?_) frame_eq)
    frame_eq
  exact .ite (fun _ => .of_leaves (.fail frame_eq _)) fun _ => .setOut _

theorem failsLeaving_decodeChar : FailsLeaving (fun v v' => v' = v) (decodeChar r) := by
  refine .bind (.call frame_eq _) (fun off => .bind (.call frame_eq _) (fun t => ?_) frame_eq)
    frame_eq
  split
  · exact .setOut _
  · exact .of_leaves (.fail frame_eq _)

/-- A value of one of these types is assigned when it is complete. -/
theorem failsLeaving_atomic {t : Ty} (ht : t.atomic = true) (fuel : Nat) (f : FieldMeta) :
    FailsLeaving (fun v v' => v' = v) (decodeValue env r fuel f t) := by
  cases fuel with
  | zero => exact .of_leaves (.throw frame_eq _)
  | succ fuel =>
    unfold decodeValue
    cases t with
    | bool | float | double => exact .bind (.call frame_eq _) (fun _ => .setOut _) frame_eq
    | char => exact failsLeaving_decodeChar
    | int k => exact .bind (leaves_decodeInt frame_eq f k) (fun _ => .setOut _) frame_eq
    | enum e => exact failsLeaving_decodeEnum f e
    | string view => exact failsLeaving_decodeString f view
    | _ => cases ht

/-! ### Optional-likes -/

theorem leaves_decodeTags (hR : Frame R) (f : FieldMeta) (tags : List Nat) :
    Leaves R (decodeTags r f tags) :=
  .ite (fun _ => .pure hR _) fun _ => .mapError (.call hR _)

/-- A failing optional-like is what it was before a null, and before anything else holds what its
value has become. -/
theorem decodeOptional_left
    {dec : D σ Unit} {t : Ty} {b b' : Build σ} {a : Abort}
    (h : decodeOptional env r dec t b = .error a b') (fuel : Nat) (f : FieldMeta) :
    (begun env r fuel f (.optional t) b = none ∧ b'.out = b.out) ∨
      begun env r fuel f (.optional t) b = some .value ∧
        ∃ s b₁, dec { reader := s, out := t.zero env } = .error a b₁ ∧ b'.out = .some b₁.out := by
  unfold decodeOptional at h
  rw [begun]
  cases hpeek : r.peek b.reader with
  | error e s =>
    rw [Run.bind_of_error (call_of_error hpeek)] at h
    cases h
    exact .inl ⟨rfl, rfl⟩
  | ok k s =>
    rw [Run.bind_of_ok (call_of_ok hpeek)] at h
    by_cases hk : k = .null
    · rw [if_pos hk] at h
      refine .inl ⟨if_pos hk, ?_⟩
      have hleft : FailsLeaving (fun v v' => v' = v)
        (do call r.expectNull; setOut .null : D σ Unit) :=
        .bind (.call frame_eq _) (fun _ => .setOut _) frame_eq
      have hout := hleft _ _ _ h
      exact hout
    · rw [if_neg hk] at h
      refine .inr ⟨if_neg hk, s, ?_⟩
      have hheld : onHeld dec { reader := s, out := .some (t.zero env) } = .error a b' := h
      unfold onHeld focus at hheld
      cases hdec : dec { reader := s, out := t.zero env } with
      | ok u b₁ =>
        rw [show Val.held (.some (t.zero env)) = t.zero env from rfl, hdec] at hheld
        cases hheld
      | error e b₁ =>
        rw [show Val.held (.some (t.zero env)) = t.zero env from rfl, hdec] at hheld
        cases hheld
        exact ⟨b₁, rfl, rfl⟩

/-! ### Variants -/

theorem leaves_consumeRest (hR : Frame R) (fuel : Nat) (c : M) :
    Leaves R (consumeRest r fuel c) := by
  induction fuel generalizing c with
  | zero => exact .throw hR _
  | succ fuel ih =>
    refine .bind hR (.call hR _) fun (more, c) => .ite (fun _ => ?_) fun _ => .pure hR _
    exact .bind hR (.call hR _) fun _ => .bind hR (.call hR _) fun _ => ih c

theorem leaves_findTag (hR : Frame R) (tagKey : Bytes) (fuel : Nat) (c : M) :
    Leaves R (findTag r tagKey fuel c) := by
  induction fuel generalizing c with
  | zero => exact .throw hR _
  | succ fuel ih =>
    refine .bind hR (.call hR _) fun (more, c) => .ite (fun _ => ?_) fun _ => .pure hR _
    refine .bind hR (.call hR _) fun _ => .bind hR (.call hR _) fun t =>
      .ite (fun _ => ?_) fun _ => ?_
    · refine .bind hR (.call hR _) fun off => .bind hR (.call hR _) fun tv => ?_
      exact .bind hR (leaves_consumeRest hR fuel c) fun _ => .pure hR _
    · exact .bind hR (.call hR _) fun _ => ih c

theorem leaves_chooseAlternative (hR : Frame R) (alts : List (Bytes × Ty))
    (tagKey : Bytes) (off : Nat) (tag : Option (Nat × Bytes)) :
    Leaves R (chooseAlternative env r alts tagKey off tag) := by
  cases tag with
  | none => exact .fail hR _
  | some tag =>
    obtain ⟨tagOff, name⟩ := tag
    unfold chooseAlternative
    simp only
    cases findAlternative name alts 0 with
    | none => exact .fail hR _
    | some alt => exact .pure hR _

theorem leaves_firstPass (hR : Frame R) (fuel : Nat) (f : FieldMeta) (alts : List (Bytes × Ty)) :
    Leaves R (firstPass env r fuel f alts) := by
  unfold firstPass
  cases f.tagKey with
  | none => exact .throw hR _
  | some tagKey =>
    refine .bind hR (.call hR _) fun off => .bind hR (.call hR _) fun c => ?_
    exact .bind hR (leaves_findTag hR tagKey fuel c) fun tag =>
      leaves_chooseAlternative hR alts tagKey off tag

/-- The alternative has been begun. -/
def HoldsAlternative (i : Nat) (v : Val) : Prop := ∃ w, v = .variant i w

theorem leaves_onAlternative (i : Nat) (m : D σ Unit) :
    Leaves (fun v v' => HoldsAlternative i v → HoldsAlternative i v') (onAlternative i m) := by
  intro b _
  unfold onAlternative
  rw [final_focus]
  exact ⟨_, rfl⟩

theorem leaves_externalLoop (i : Nat) (dec : D σ Unit) (tagKey : Bytes) (fuel : Nat) (c : M)
    (haveValue : Bool) :
    Leaves (fun v v' => HoldsAlternative i v → HoldsAlternative i v')
      (externalLoop r (onAlternative i dec) tagKey fuel c haveValue) := by
  have hR := frame_keeps (HoldsAlternative i)
  induction fuel generalizing c haveValue with
  | zero => exact .throw hR _
  | succ fuel ih =>
    refine .bind hR (.call hR _) fun (more, c) => .ite (fun _ => ?_) fun _ => .pure hR _
    refine .bind hR (.call hR _) fun _ => .bind hR (.call hR _) fun t =>
      .ite (fun _ => ?_) fun _ => ?_
    · exact .bind hR (.inStep r (leaves_onAlternative i dec)) fun _ => ih c true
    · exact .bind hR (.call hR _) fun _ => ih c haveValue

theorem leaves_decodeAlternative
    (fuel : Nat) (dec : Ty → D σ Unit) (decStruct : StructDef → Bytes → D σ Unit)
    (alts : List (Bytes × Ty)) (tagKey : Bytes) (off i : Nat) (t : Ty) :
    Leaves (fun v v' => HoldsAlternative i v → HoldsAlternative i v')
      (decodeAlternative env r fuel dec decStruct alts tagKey off i t) := by
  have hR := frame_keeps (HoldsAlternative i)
  unfold decodeAlternative
  cases internallyTagged env t with
  | some s => exact leaves_onAlternative i _
  | none =>
    refine .bind hR (.call hR _) fun c => .bind hR (leaves_externalLoop i _ tagKey fuel c false)
      fun haveValue => ?_
    exact .ite (fun _ => .pure hR _) fun _ => .fail hR _

/-- A failing variant is what it was if the first pass fails, and else holds the alternative that
was found. -/
theorem decodeVariant_left
    {fuel : Nat} {dec : Ty → D σ Unit} {decStruct : StructDef → Bytes → D σ Unit} {f : FieldMeta}
    {alts : List (Bytes × Ty)}
    {b b' : Build σ} {a : Abort}
    (h : decodeVariant env r fuel dec decStruct f alts b = .error a b') :
    (∃ e b₁, firstPass env r fuel f alts b = .error e b₁ ∧ b'.out = b.out) ∨
      ∃ i t b₁, firstPass env r fuel f alts b = .ok (i, t) b₁ ∧ HoldsAlternative i b'.out := by
  have hpass : (final (firstPass env r fuel f alts b)).out = b.out :=
    leaves_firstPass frame_eq fuel f alts b
  unfold decodeVariant at h
  unfold firstPass at hpass ⊢
  cases htag : f.tagKey with
  | none =>
    rw [htag] at h
    cases h
    exact .inl ⟨_, _, rfl, rfl⟩
  | some tagKey =>
    rw [htag] at h hpass
    have hstart : (getReader : D σ σ) b = .ok b.reader b := rfl
    simp only [Run.bind_of_ok hstart] at h
    simp only at hpass ⊢
    cases hoff : call r.offset b with
    | error e b₁ =>
      rw [Run.bind_of_error hoff] at h hpass ⊢
      cases h
      exact .inl ⟨_, _, rfl, hpass⟩
    | ok off b₁ =>
      rw [Run.bind_of_ok hoff] at h hpass ⊢
      cases hmap : call r.expectMap b₁ with
      | error e b₂ =>
        rw [Run.bind_of_error hmap] at h hpass ⊢
        cases h
        exact .inl ⟨_, _, rfl, hpass⟩
      | ok c b₂ =>
        rw [Run.bind_of_ok hmap] at h hpass ⊢
        cases hfind : findTag r tagKey fuel c b₂ with
        | error e b₃ =>
          rw [Run.bind_of_error hfind] at h hpass ⊢
          cases h
          exact .inl ⟨_, _, rfl, hpass⟩
        | ok tag b₃ =>
          rw [Run.bind_of_ok hfind] at h hpass ⊢
          cases hchoose : chooseAlternative env r alts tagKey off tag b₃ with
          | error e b₄ =>
            rw [Run.bind_of_error hchoose] at h
            rw [hchoose] at hpass
            cases h
            exact .inl ⟨_, _, rfl, hpass⟩
          | ok alt b₄ =>
            obtain ⟨i, t⟩ := alt
            rw [Run.bind_of_ok hchoose] at h
            refine .inr ⟨i, t, b₄, rfl, ?_⟩
            have hleft : HoldsAlternative i
              (final (decodeAlternative env r fuel dec decStruct alts tagKey off i t
                { reader := r.restore (r.save b.reader) b₄.reader,
                  out := .variant i (t.zero env) })).out :=
              leaves_decodeAlternative fuel dec decStruct alts tagKey off i t _ ⟨_, rfl⟩
            have hout := congrArg (fun x => (final x).out) h
            exact hout ▸ hleft

/-! ### The value of a member -/

theorem decodeFieldValue_plain
    {f : FieldMeta} {t : Ty} (ht : ∀ u, t ≠ .optional u) (hbulk : r.traits.bulkRange f t = false)
    (haccepts : r.traits.acceptsBulkRange t = false) (dec : Ty → D σ Unit) :
    decodeFieldValue env r dec f t = (do
      decodeTags r f (r.traits.expectedTags env f t)
      dec t) := by
  have hplain : decodeBulk r (dec t) f t = dec t := if_neg (by simp [hbulk, haccepts])
  cases t with
  | optional u => exact absurd rfl (ht u)
  | _ =>
    rw [decodeFieldValue, hplain]
    nofun

theorem failsLeaving_fieldValue
    {f : FieldMeta} {t : Ty} (ht : t.atomic = true) (hbulk : r.traits.bulkRange f t = false)
    (haccepts : r.traits.acceptsBulkRange t = false) (fuel : Nat) :
    FailsLeaving (fun v v' => v' = v) (decodeFieldValue env r (decodeValue env r fuel f) f t) := by
  have hplain : ∀ u, t ≠ .optional u := by
    rintro u rfl
    cases ht
  rw [decodeFieldValue_plain hplain hbulk haccepts]
  exact .bind (leaves_decodeTags frame_eq f _) (fun _ => failsLeaving_atomic ht fuel f) frame_eq

theorem replaced_cases {t : Ty} (ht : t.replaced = true) :
    t.atomic = true ∨ (∃ u, t = .optional u) ∨ ∃ alts, t = .variant alts := by
  cases t with
  | optional u => exact .inr (.inl ⟨u, rfl⟩)
  | variant alts => exact .inr (.inr ⟨alts, rfl⟩)
  | _ => exact .inl ht

theorem begun_atomic {t : Ty} (ht : t.atomic = true) (fuel : Nat) (f : FieldMeta) (b : Build σ) :
    begun env r fuel f t b = none := by
  cases fuel <;> cases t <;> first | rfl | cases ht

/-- What a failing member is left as: the value it had, or the object that its decoder has begun. -/
theorem decodeFieldValue_left
    {f : FieldMeta} {t : Ty} (ht : t.replaced = true) (hbulk : r.traits.bulkRange f t = false)
    (haccepts : r.traits.acceptsBulkRange t = false) {fuel : Nat} {b b' : Build σ} {a : Abort}
    (h : decodeFieldValue env r (decodeValue env r fuel f) f t b = .error a b') :
    (begun env r fuel f t b = none ∧ b'.out = b.out) ∨ ∃ g, begun env r fuel f t b = some g ∧
      b'.out.holding = some g := by
  rcases replaced_cases ht with hatomic | ⟨u, rfl⟩ | ⟨alts, rfl⟩
  · exact .inl ⟨begun_atomic hatomic fuel f b,
      failsLeaving_fieldValue hatomic hbulk haccepts fuel _ _ _ h⟩
  · rw [decodeFieldValue] at h
    rcases decodeOptional_left h fuel f with hsame | ⟨hbegun, s, b₁, -, hout⟩
    · exact .inl hsame
    · exact .inr ⟨_, hbegun, by rw [hout]; rfl⟩
  have hplain : ∀ u, Ty.variant alts ≠ .optional u := by
    intro u hu
    cases hu
  rw [decodeFieldValue_plain hplain hbulk haccepts] at h
  cases fuel with
  | zero =>
    refine .inl ⟨rfl, ?_⟩
    have hleft : FailsLeaving (fun v v' => v' = v) (do
        decodeTags r f (r.traits.expectedTags env f (.variant alts))
        decodeValue env r 0 f (.variant alts)) :=
      .bind (leaves_decodeTags frame_eq f _) (fun _ => .of_leaves (.throw frame_eq _)) frame_eq
    have hout := hleft _ _ _ h
    exact hout
  | succ fuel =>
    have htags : (final (decodeTags r f (r.traits.expectedTags env f (.variant alts)) b)).out =
      b.out :=
      leaves_decodeTags frame_eq f _ b
    rw [begun]
    cases hrun : decodeTags r f (r.traits.expectedTags env f (.variant alts)) b with
    | error e b₁ =>
      rw [hrun] at htags
      rw [Run.bind_of_error hrun] at h
      rw [Run.bind_of_error hrun]
      cases h
      exact .inl ⟨rfl, htags⟩
    | ok u b₁ =>
      rw [hrun] at htags
      rw [Run.bind_of_ok hrun] at h
      rw [Run.bind_of_ok hrun]
      have hvariant : decodeVariant env r fuel (decodeValue env r fuel noField)
          (decodeStruct r fuel fun f t => decodeFieldValue env r (decodeValue env r fuel f) f t) f
            alts b₁ = .error a b' := h
      rcases decodeVariant_left hvariant with ⟨e, b₂, hpass, hout⟩ | ⟨i, t, b₂, hpass, w, hout⟩
      · rw [hpass]
        exact .inl ⟨rfl, hout.trans htags⟩
      · rw [hpass]
        exact .inr ⟨_, rfl, by rw [hout]; rfl⟩

/-- What a failing optional-like of a scalar is left as: the value it had, or a fresh one. -/
theorem optional_left {f : FieldMeta} {u : Ty} (hu : u.atomic = true)
    (hbulk : r.traits.bulkRange f u = false) (haccepts : r.traits.acceptsBulkRange u = false)
    {fuel : Nat} {b b' : Build σ} {a : Abort}
    (h : decodeFieldValue env r (decodeValue env r fuel f) f (.optional u) b = .error a b')
    (hbegun : begun env r fuel f (.optional u) b ≠ none) : b'.out = .some (u.zero env) := by
  rw [decodeFieldValue] at h
  rcases decodeOptional_left h fuel f with ⟨hnone, -⟩ | ⟨-, s, b₁, hdec, hout⟩
  · exact absurd hnone hbegun
  · have hleft := failsLeaving_fieldValue hu hbulk haccepts fuel _ _ _ hdec
    rw [hout]
    exact congrArg Val.some hleft

end VCodec
