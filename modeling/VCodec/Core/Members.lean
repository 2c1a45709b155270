import VCodec.Core.Leaves

/-!
# What the entries of a struct leave of a member

An entry writes into the member that its key names and into no other. What a single entry leaves of
a member stays in the struct, also where the entry fails and the decoder goes on behind it.
-/

namespace VCodec

open D
open Run (final)

variable {σ S M : Type}

variable {r : Reader σ S M} {R : Val → Val → Prop}

/-! ### The entries of a struct -/

/-- The key names member `i`. -/
def names (r : Reader σ S M) (s : StructDef) (i : Nat) : Except Nat EntryKey → Bool
  | .ok key => s.resolve r key = some i
  | .error _ => false

/-- The loop up to the value of the next entry. -/
def entryFront (r : Reader σ S M) (s : StructDef) (c : M) :
    D σ (Option (M × Nat × Except Nat EntryKey)) := do
  let (more, c) ← call (r.nextKey c)
  if more then do
    let off ← call r.offset
    let key ← readEntryKey r s
    return some (c, off, key)
  else return none

/-- The states in which the loop over the entries stands in front of the value of an entry that
names member `i`. -/
def visits (r : Reader σ S M) (dec : FieldMeta → Ty → D σ Unit) (s : StructDef) (ignoreKey : Bytes)
    (i : Nat) :
    Nat → M → List Nat → Build σ → List (Build σ)
  | 0, _, _, _ => []
  | fuel + 1, c, seen, b =>
    match entryFront r s c b with
    | .ok (some (c, off, key)) b₁ =>
      (if names r s i key then [b₁] else []) ++
        match structEntry r dec s ignoreKey off seen key b₁ with
        | .ok seen b₂ => visits r dec s ignoreKey i fuel c seen b₂
        | .error _ _ => []
    | _ => []

/-- The same of a whole struct. -/
def memberVisits (r : Reader σ S M) (fuel : Nat) (dec : FieldMeta → Ty → D σ Unit) (s : StructDef)
    (ignoreKey : Bytes) (i : Nat) (b : Build σ) : List (Build σ) :=
  match (do
    let _ ← call r.offset
    call r.expectMap : D σ M) b with
  | .ok c b₁ => visits r dec s ignoreKey i fuel c [] b₁
  | .error _ _ => []

section

variable {dec : FieldMeta → Ty → D σ Unit} {s : StructDef} {ignoreKey : Bytes} {i : Nat}

theorem structLoop_succ (fuel : Nat) (c : M) (seen : List Nat) :
    structLoop r dec s ignoreKey (fuel + 1) c seen = (do
      match ← entryFront r s c with
      | some (c, off, key) => do
        let seen ← structEntry r dec s ignoreKey off seen key
        structLoop r dec s ignoreKey fuel c seen
      | none => return seen) := by
  rw [structLoop, entryFront, bind_assoc]
  refine bind_congr fun p => ?_
  obtain ⟨more, c⟩ := p
  cases more with
  | true => simp only [if_true, bind_assoc, pure_bind]
  | false => simp only [if_false, Bool.false_eq_true, pure_bind]

theorem leaves_readEntryKey (hR : Frame R) : Leaves R (readEntryKey r s) := by
  refine .bind hR (.ite (fun _ => .call hR _) fun _ => .pure hR _) fun kind => ?_
  refine .ite (fun _ => ?_) fun _ => .ite (fun _ => ?_) fun _ => ?_
  · exact .bind hR (.call hR _) fun u => .ite (fun _ => .pure hR _) fun _ => .pure hR _
  · exact .bind hR (.call hR _) fun i => .pure hR _
  · exact .bind hR (.call hR _) fun t => .pure hR _

theorem leaves_entryFront (hR : Frame R) (c : M) : Leaves R (entryFront r s c) := by
  refine .bind hR (.call hR _) fun (more, c) => .ite (fun _ => ?_) fun _ => .pure hR _
  exact .bind hR (.call hR _) fun off => .bind hR (leaves_readEntryKey hR) fun key => .pure hR _

theorem leaves_reportKey (hR : Frame R) (e : Error) : Leaves R (reportKey r e) := by
  unfold reportKey
  cases r.errors with
  | failFast => exact .fail hR _
  | collect => exact .bind hR (.collect hR r e) fun _ => .call hR _

theorem leaves_unknownEntry (hR : Frame R) (off : Nat) (key : EntryKey) :
    Leaves R (unknownEntry r s ignoreKey off key) :=
  .ite (fun _ => .call hR _) fun _ => .ite (fun _ => leaves_reportKey hR _) fun _ => .call hR _

theorem leaves_bigKeyEntry (hR : Frame R) (off u : Nat) : Leaves R (bigKeyEntry r s off u) :=
  .bind hR (.call hR _) fun _ => .ite (fun _ => .fail hR _) fun _ => .pure hR _

/-- Recovery rewinds the reader, not the object. -/
theorem final_recover (m : D σ Unit) (b : Build σ) :
    (final (recover r m b)).out = (final (m b)).out := by
  unfold recover
  cases r.errors with
  | failFast => rfl
  | collect =>
    cases m b with
    | ok a b' => rfl
    | error a b' =>
      cases a with
      | error e =>
        simp only
        split
        · rfl
        · have hleft : Leaves (fun v v' => v' = v) (do
              collect r e
              modifyReader (r.restore (r.save b.reader))
              call r.skipValue) :=
            .bind frame_eq (.collect frame_eq r e) fun _ =>
              .bind frame_eq (.modifyReader frame_eq _) fun _ => .call frame_eq _
          exact hleft b'
      | rejected | outOfFuel => rfl

/-- The value of another member's entry. -/
theorem leaves_memberEntry {j : Nat} (hne : j ≠ i) (f : Field) (off : Nat) (key : EntryKey)
    (seen : List Nat) :
    Leaves (SameItem i) (memberEntry r dec j f off key seen) := by
  have hR := frame_sameItem i
  refine .ite (fun _ => .call hR _) fun _ => .ite (fun _ => leaves_reportKey hR _) fun _ =>
    .ite (fun _ => .call hR _) fun _ => ?_
  intro b
  rw [final_recover]
  exact Leaves.inStep r (.onItem hne _) b

theorem leaves_structEntry {key : Except Nat EntryKey} (hkey : names r s i key = false) (off : Nat)
    (seen : List Nat) :
    Leaves (SameItem i) (structEntry r dec s ignoreKey off seen key) := by
  have hR := frame_sameItem i
  cases key with
  | error u => exact .bind hR (leaves_bigKeyEntry hR off u) fun _ => .pure hR _
  | ok key =>
    unfold structEntry
    simp only
    cases hresolve : s.resolve r key with
    | none => exact .bind hR (leaves_unknownEntry hR off key) fun _ => .pure hR _
    | some j =>
      have hne : j ≠ i := by
        rintro rfl
        simp [names, hresolve] at hkey
      simp only
      cases s.fields[j]? with
      | none => exact .throw hR _
      | some f => exact .bind hR (leaves_memberEntry hne f off key seen) fun _ => .pure hR _

/-- An entry that does not name the member does not mark it as seen. -/
theorem mem_seen_iff {key : Except Nat EntryKey} (hkey : names r s i key = false) {off : Nat}
    {seen seen' : List Nat} {b b' : Build σ}
    (h : structEntry r dec s ignoreKey off seen key b = .ok seen' b') : i ∈ seen' ↔ i ∈ seen := by
  cases key with
  | error u =>
    obtain ⟨a, b₁, -, hret⟩ := Run.bind_eq_ok.1 h
    cases hret
    rfl
  | ok key =>
    unfold structEntry at h
    simp only at h
    cases hresolve : s.resolve r key with
    | none =>
      rw [hresolve] at h
      obtain ⟨a, b₁, -, hret⟩ := Run.bind_eq_ok.1 h
      cases hret
      rfl
    | some j =>
      have hne : i ≠ j := by
        rintro rfl
        simp [names, hresolve] at hkey
      rw [hresolve] at h
      simp only at h
      cases hfield : s.fields[j]? with
      | none =>
        rw [hfield] at h
        cases h
      | some f =>
        rw [hfield] at h
        obtain ⟨a, b₁, -, hret⟩ := Run.bind_eq_ok.1 h
        cases hret
        split
        · rfl
        · exact ⟨fun hi => (List.mem_cons.1 hi).resolve_left hne, List.mem_cons_of_mem _⟩

/-- Without an entry that names the member, the loop leaves it alone. -/
theorem structLoop_other {fuel : Nat} {c : M} {seen : List Nat} {b : Build σ}
    (h : visits r dec s ignoreKey i fuel c seen b = []) :
    SameItem i b.out (final (structLoop r dec s ignoreKey fuel c seen b)).out ∧
      ∀ seen' b', structLoop r dec s ignoreKey fuel c seen b = .ok seen' b' →
        (i ∈ seen' ↔ i ∈ seen) := by
  have hR := frame_sameItem i
  induction fuel generalizing c seen b with
  | zero => exact ⟨hR.refl _, nofun⟩
  | succ fuel ih =>
    rw [structLoop_succ]
    rw [visits] at h
    have hfront : SameItem i b.out (final (entryFront r s c b)).out := leaves_entryFront hR c b
    cases hrun : entryFront r s c b with
    | error e b₁ =>
      rw [hrun] at hfront
      rw [Run.bind_of_error hrun]
      exact ⟨hfront, nofun⟩
    | ok next b₁ =>
      rw [hrun] at h hfront
      rw [Run.bind_of_ok hrun]
      cases next with
      | none =>
        refine ⟨hfront, fun seen' b' hret => ?_⟩
        cases hret
        rfl
      | some entry =>
        obtain ⟨c', off, key⟩ := entry
        simp only at h ⊢
        obtain ⟨hkey, hrest⟩ := List.append_eq_nil_iff.1 h
        have hother : names r s i key = false := by
          by_contra hne
          rw [Bool.not_eq_false] at hne
          rw [if_pos hne] at hkey
          cases hkey
        have hentry : SameItem i b₁.out
          (final (structEntry r dec s ignoreKey off seen key b₁)).out :=
          leaves_structEntry hother off seen b₁
        cases hstep : structEntry r dec s ignoreKey off seen key b₁ with
        | error e b₂ =>
          rw [hstep] at hentry
          rw [Run.bind_of_error hstep]
          exact ⟨hR.trans hfront hentry, nofun⟩
        | ok seen₂ b₂ =>
          rw [hstep] at hentry hrest
          rw [Run.bind_of_ok hstep]
          obtain ⟨hsame, hseen⟩ := ih hrest
          refine ⟨hR.trans hfront (hR.trans hentry hsame), fun seen' b' hret => ?_⟩
          rw [hseen seen' b' hret, mem_seen_iff hother hstep]

/-- Decode the value of a member, and recover. -/
def memberRun (r : Reader σ S M) (dec : FieldMeta → Ty → D σ Unit) (i : Nat) (f : Field) :
    D σ Unit :=
  recover r (inStep r (·.pushMember f.info.identifier) (onItem i (dec f.info f.ty)))

theorem structEntry_names {key : Except Nat EntryKey} (hkey : names r s i key = true) {f : Field}
    (hf : s.fields[i]? = some f) (hdecoded : f.skipDeserializing = false) {seen : List Nat}
    (hseen : i ∉ seen) (off : Nat) :
    structEntry r dec s ignoreKey off seen key = (do
      memberRun r dec i f
      return i :: seen) := by
  cases key with
  | error u => cases hkey
  | ok key =>
    have hresolve : s.resolve r key = some i := of_decide_eq_true hkey
    have hskip : ¬ f.skipDeserializing = true := by
      rw [hdecoded]
      exact Bool.false_ne_true
    unfold structEntry memberEntry
    simp only [hresolve, hf]
    rw [if_neg hskip, if_neg fun h => hseen h.1, if_neg fun h => hseen h.1, if_neg hskip]
    rfl

/-- With a single entry that names the member, the loop leaves the member as the decoding of that
entry does. -/
theorem structLoop_single
    {f : Field} (hf : s.fields[i]? = some f) (hdecoded : f.skipDeserializing = false) {fuel : Nat}
    {c : M} {seen : List Nat} {b b₀ : Build σ} (h : visits r dec s ignoreKey i fuel c seen b = [b₀])
    (hunseen : i ∉ seen) :
    SameItem i b.out b₀.out ∧
      (final (structLoop r dec s ignoreKey fuel c seen b)).out.item i =
        (final (memberRun r dec i f b₀)).out.item i ∧
      ∀ seen' b', structLoop r dec s ignoreKey fuel c seen b = .ok seen' b' → i ∈ seen' := by
  have hR := frame_sameItem i
  induction fuel generalizing c seen b with
  | zero => cases h
  | succ fuel ih =>
    rw [structLoop_succ]
    rw [visits] at h
    have hfront : SameItem i b.out (final (entryFront r s c b)).out := leaves_entryFront hR c b
    cases hrun : entryFront r s c b with
    | error e b₁ =>
      rw [hrun] at h
      cases h
    | ok next b₁ =>
      rw [hrun] at h hfront
      rw [Run.bind_of_ok hrun]
      cases next with
      | none => cases h
      | some entry =>
        obtain ⟨c', off, key⟩ := entry
        simp only at h ⊢
        cases hkey : names r s i key with
        | true =>
          rw [if_pos hkey, List.singleton_append, List.cons.injEq] at h
          obtain ⟨rfl, hrest⟩ := h
          rw [structEntry_names hkey hf hdecoded hunseen] at hrest ⊢
          cases hmember : memberRun r dec i f b₁ with
          | error e b₂ =>
            rw [bind_assoc, Run.bind_of_error hmember]
            exact ⟨hfront, rfl, nofun⟩
          | ok u b₂ =>
            rw [Run.bind_of_ok hmember] at hrest
            rw [bind_assoc, Run.bind_of_ok hmember]
            obtain ⟨hsame, hseen⟩ := structLoop_other (r := r) hrest
            refine ⟨hfront, hsame.1, fun seen' b' hret => ?_⟩
            exact (hseen seen' b' hret).2 (List.mem_cons_self ..)
        | false =>
          rw [if_neg (by rw [hkey]; exact Bool.false_ne_true), List.nil_append] at h
          have hentry : SameItem i b₁.out
            (final (structEntry r dec s ignoreKey off seen key b₁)).out :=
            leaves_structEntry hkey off seen b₁
          cases hstep : structEntry r dec s ignoreKey off seen key b₁ with
          | error e b₂ =>
            rw [hstep] at h
            cases h
          | ok seen₂ b₂ =>
            rw [hstep] at h hentry
            rw [Run.bind_of_ok hstep]
            obtain ⟨hsame, hitem, hseen⟩ := ih h ((mem_seen_iff hkey hstep).not.2 hunseen)
            exact ⟨hR.trans hfront (hR.trans hentry hsame), hitem, hseen⟩

/-! ### A whole struct -/

theorem leaves_describeLoop (hR : Frame R) (fuel : Nat) (c : M) (e : Error) (count : Nat) :
    Leaves R (describeLoop r fuel c e count) := by
  induction fuel generalizing c e count with
  | zero => exact .throw hR _
  | succ fuel ih =>
    refine .bind hR (.attempt hR _) fun next => ?_
    split
    · refine .bind hR (.call hR _) fun kind => .bind hR (.attempt hR _) fun key => ?_
      cases key with
      | none => exact .pure hR _
      | some key =>
        refine .bind hR (.attempt hR _) fun skipped => ?_
        cases skipped with
        | none => exact .pure hR _
        | some u => exact ih _ _ _
    · exact .pure hR _

theorem leaves_reportMissing
    (hR : Frame R) (fuel : Nat) (off save : Nat) (f : Field) (missing : Option Error) :
    Leaves R (reportMissing r fuel s off save f missing) := by
  cases missing with
  | some e => exact .pure hR _
  | none =>
    have hmap : ∀ e, Leaves R (describeMap r fuel e) := by
      intro e
      refine .bind hR (.attempt hR _) fun c => ?_
      cases c with
      | none => exact .pure hR _
      | some c => exact leaves_describeLoop hR fuel c e 0
    have hkeys : ∀ e, Leaves R (describePresentKeys r fuel save e) := fun e =>
      .bind hR (.getReader hR) fun _ => .bind hR (.modifyReader hR _) fun _ =>
        .bind hR (hmap e) fun _ =>
        .bind hR (.modifyReader hR _) fun _ => .pure hR _
    refine .bind hR (hkeys _) fun e => ?_
    cases r.errors with
    | failFast => exact .pure hR _
    | collect => exact .bind hR (.collect hR r e) fun _ => .pure hR _

/-- A member that was seen is no missing one. -/
theorem leaves_missingLoop {seen : List Nat} (hseen : i ∈ seen) (fuel off save : Nat)
    (fs : List Field) (j : Nat) (missing : Option Error) :
    Leaves (SameItem i) (missingLoop r fuel s off save seen fs j missing) := by
  have hR := frame_sameItem i
  induction fs generalizing j missing with
  | nil => exact .pure hR _
  | cons f fs ih =>
    refine .ite (fun _ => ih _ _) fun hdue =>
      .bind hR (.ite (fun _ => leaves_reportMissing hR _ _ _ _ _) fun _ => ?_) fun _ => ih _ _
    have hne : j ≠ i := by
      rintro rfl
      exact hdue (.inr hseen)
    cases f.default with
    | none => exact .pure hR _
    | some v => exact .bind hR (.onItem hne _) fun _ => .pure hR _

/-- A member that was missing only fails the run. -/
theorem leaves_failMissing {R : Val → Val → Prop} (hR : Frame R) (missing : Option Error) :
    Leaves R (σ := σ) (match missing with
      | some e => D.fail e
      | none => pure ()) := by
  cases missing with
  | none => exact .pure hR _
  | some e => exact .fail hR _

/-- A member with a single entry is left as the decoding of that entry leaves it. -/
theorem decodeMembers_single
    {f : Field} (hf : s.fields[i]? = some f) (hdecoded : f.skipDeserializing = false) {fuel : Nat}
    {b b₀ : Build σ} (h : memberVisits r fuel dec s ignoreKey i b = [b₀]) :
    SameItem i b.out b₀.out ∧
      (final (decodeMembers r fuel dec s ignoreKey b)).out.item i =
        (final (memberRun r dec i f b₀)).out.item i := by
  have hR := frame_sameItem i
  unfold memberVisits at h
  unfold decodeMembers
  have hoff : SameItem i b.out (final (call r.offset b)).out := Leaves.call hR _ b
  cases hcall : call r.offset b with
  | error e b₁ =>
    rw [Run.bind_of_error hcall] at h
    cases h
  | ok off b₁ =>
    rw [hcall] at hoff
    rw [Run.bind_of_ok hcall] at h ⊢
    have hsave : (getReader : D σ σ) b₁ = .ok b₁.reader b₁ := rfl
    rw [Run.bind_of_ok hsave]
    have hopen : SameItem i b₁.out (final (call r.expectMap b₁)).out := Leaves.call hR _ b₁
    cases hmap : call r.expectMap b₁ with
    | error e b₂ =>
      rw [hmap] at h
      cases h
    | ok c b₂ =>
      rw [hmap] at h hopen
      rw [Run.bind_of_ok hmap]
      obtain ⟨hsame, hitem, hseen⟩ := structLoop_single hf hdecoded h List.not_mem_nil
      refine ⟨hR.trans hoff (hR.trans hopen hsame), ?_⟩
      cases hloop : structLoop r dec s ignoreKey fuel c [] b₂ with
      | error e b₃ =>
        rw [hloop] at hitem
        rw [Run.bind_of_error hloop]
        exact hitem
      | ok seen b₃ =>
        rw [hloop] at hitem
        rw [Run.bind_of_ok hloop]
        have hmissing :=
          leaves_missingLoop (r := r) (s := s) (hseen seen b₃ hloop) fuel off
          (r.save b₁.reader) s.fields 0 none
        have hrest := Leaves.bind hR hmissing (leaves_failMissing hR) b₃
        exact hrest.1.trans hitem

end

end VCodec
