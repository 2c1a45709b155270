import VCodec.Cbor.Cursors
import VCodec.Core.Simulate

/-!
# Strict and lax reading

The reader that validates deterministic encoding against the one that does not. Every operation of
the first does what the second does, or gives up with a `non_deterministic` error. The look-ahead at
the keys of a map is a detour of the strict reader only, which comes back to where it started.
-/

namespace VCodec.Cbor

open Run (Agrees)

variable {o : Options} {inp : Bytes}

/-- The strict operation does what the lax one does, or reports that the input is not
deterministic. -/
abbrev Lockstep {α β : Type} (rel : α → β → Prop) (m : M α) (n : M β) : Prop :=
  OpSim (· = .nonDeterministic) Eq rel m n

/-- Results of operations in lockstep. -/
abbrev Matches {α β : Type} (rel : α → β → Prop) (x : EStateM.Result Error State α)
    (y : EStateM.Result Error State β) :
    Prop := Agrees (fun e : Error => e.code = .nonDeterministic) Eq rel x y

section

variable {α β γ δ : Type} {rel : α → β → Prop} {s : State}

theorem Matches.refl (x : EStateM.Result Error State α) : Matches Eq x x := by
  cases x with
  | ok a s => exact ⟨rfl, rfl⟩
  | error e s => trivial

theorem Matches.giveUp {e : Error} (h : e.code = .nonDeterministic)
    (y : EStateM.Result Error State β) :
    Matches rel (.error e s) y := by
  cases y with
  | ok b t => exact h
  | error e' t => trivial

theorem Lockstep.refl (m : M α) : Lockstep Eq m m := by
  rintro s _ rfl
  exact Matches.refl _

theorem Lockstep.bind_eq {rel' : γ → δ → Prop} {m n : M α} {f : α → M γ} {g : α → M δ}
    (hm : Lockstep Eq m n) (hf : ∀ a, Lockstep rel' (f a) (g a)) :
    Lockstep rel' (do f (← m)) (do g (← n)) :=
  Run.Simulates.bind hm fun a _ hab => hab ▸ hf a

theorem Lockstep.same_ite {c : Prop} [Decidable c] {m₁ m₂ : M α} {n₁ n₂ : M β}
    (h₁ : Lockstep rel m₁ n₁) (h₂ : Lockstep rel m₂ n₂) :
    Lockstep rel (if c then m₁ else m₂) (if c then n₁ else n₂) :=
  .ite Iff.rfl (fun _ => h₁) fun _ => h₂

end

/-! ### Heads and scalars -/

theorem checkHeadDeterministic_code {h : ParsedHead} {pos : Nat} {e : Error}
    (heq : checkHeadDeterministic h pos = some e) : e.code = .nonDeterministic := by
  unfold checkHeadDeterministic at heq
  split at heq
  · cases heq
    rfl
  · split at heq
    · cases heq
      rfl
    · cases heq

theorem checkPreferredFloat_code {d : Double} {ai raw pos : Nat} {e : Error}
    (heq : checkPreferredFloat d ai raw pos = some e) : e.code = .nonDeterministic := by
  unfold checkPreferredFloat at heq
  split_ifs at heq <;> cases heq <;> rfl

theorem keyOrderError_code {cur prev : Bytes} {start : Nat} {e : Error}
    (heq : keyOrderError cur prev start = some e) : e.code = .nonDeterministic := by
  unfold keyOrderError at heq
  split at heq
  · cases heq
    rfl
  · cases heq

@[simp] theorem whenStrict_strict (e : Option Error) : whenStrict o.strict e = e := rfl

@[simp] theorem whenStrict_lax (e : Option Error) : whenStrict o.lax e = none := rfl

theorem scanHead_strict (o : Options) (inp expected : Bytes) (fuel p : Nat) :
    scanHead o.strict inp expected fuel p = scanHead o.lax inp expected fuel p ∨
      ∃ e, scanHead o.strict inp expected fuel p = .error e ∧ e.code = .nonDeterministic := by
  induction fuel generalizing p with
  | zero => exact .inl rfl
  | succ fuel ih =>
    unfold scanHead
    split
    · exact .inl rfl
    simp only [whenStrict_strict, whenStrict_lax]
    generalize parseHead inp p = h
    split
    · exact .inl rfl
    split
    · exact .inl rfl
    split
    · exact .inl rfl
    split
    · split
      · rename_i hignore
        rw [if_pos (show o.lax.ignoreUnknownTags = true from hignore)]
        exact ih _
      · rename_i hignore
        rw [if_neg (show ¬ o.lax.ignoreUnknownTags = true from hignore)]
        exact .inl rfl
    split
    · exact .inl rfl
    cases hcheck : checkHeadDeterministic h p with
    | none => exact .inl rfl
    | some e => exact .inr ⟨e, rfl, checkHeadDeterministic_code hcheck⟩

theorem lockstep_itemHead (expected : Bytes) :
    Lockstep Eq (itemHead o.strict inp expected) (itemHead o.lax inp expected) := by
  rintro s _ rfl
  unfold itemHead
  rcases scanHead_strict o inp expected (inp.length - s.pos) s.pos with heq | ⟨e, heq, hcode⟩
  · rw [heq]
    exact Matches.refl _
  · rw [heq]
    exact Matches.giveUp hcode _

open Lockstep in
theorem lockstep_expectNull : Lockstep Eq (expectNull o.strict inp) (expectNull o.lax inp) :=
  (lockstep_itemHead _).bind_eq fun _ => same_ite (.refl _) (.refl _)

open Lockstep in
theorem lockstep_expectBoolean :
    Lockstep Eq (expectBoolean o.strict inp) (expectBoolean o.lax inp) :=
  (lockstep_itemHead _).bind_eq fun _ => .refl _

theorem lockstep_expectUint : Lockstep Eq (expectUint o.strict inp) (expectUint o.lax inp) :=
  (lockstep_itemHead _).bind_eq fun _ => .refl _

theorem lockstep_expectSint : Lockstep Eq (expectSint o.strict inp) (expectSint o.lax inp) :=
  (lockstep_itemHead _).bind_eq fun _ => .refl _

theorem lockstep_expectReal : Lockstep Eq (expectReal o.strict inp) (expectReal o.lax inp) := by
  refine (lockstep_itemHead _).bind_eq fun h => ?_
  refine .same_ite (.refl _) (.same_ite (.refl _) (.same_ite ?_ (.refl _)))
  refine (Lockstep.refl get).bind_eq fun s => ?_
  rw [whenStrict_strict, whenStrict_lax]
  cases hcheck : checkPreferredFloat (floatOf h.ai h.value) h.ai h.value s.pos with
  | none => exact .refl _
  | some e =>
    rintro t _ rfl
    exact Matches.giveUp (checkPreferredFloat_code hcheck) _

/-! ### Strings -/

theorem lockstep_readString (o : Options) (inp : Bytes) (h : ParsedHead) (m : Major) :
    Lockstep Eq (readString o.strict inp h m) (readString o.lax inp h m) := by
  rintro s _ rfl
  unfold readString
  split
  · exact Matches.refl _
  · rw [if_pos (show o.strict.requireDeterministic = true from rfl)]
    exact Matches.giveUp rfl _

theorem lockstep_expectText : Lockstep Eq (expectText o.strict inp) (expectText o.lax inp) :=
  (lockstep_itemHead _).bind_eq fun h =>
    .same_ite (.refl _) ((lockstep_readString o inp h .text).bind_eq fun _ => .refl _)

theorem lockstep_expectBytes (o : Options) (inp : Bytes) :
    Lockstep Eq (expectBytes o.strict inp) (expectBytes o.lax inp) :=
  (lockstep_itemHead _).bind_eq fun h =>
    .same_ite (.refl _) ((lockstep_readString o inp h .bytes).bind_eq fun _ => .refl _)

/-! ### The validator -/

/-- Levels that differ at most in what the strict reader notes about keys. -/
structure LevelRel (a b : Level) : Prop where
  isMap : a.isMap = b.isMap
  remaining : a.remaining = b.remaining
  keyNext : a.keyNext = b.keyNext

/-- Stacks of such levels. -/
abbrev StackRel : List Level → List Level → Prop := List.Forall₂ LevelRel

inductive StepRel : Step → Step → Prop
  | again {a b : List Level} (h : StackRel a b) : StepRel (.again a) (.again b)
  | done {a b : List Level} (h : StackRel a b) : StepRel (.done a) (.done b)

section Skip

variable {stack stack' : List Level} {s : State}

theorem lockstep_skipBody (hstack : StackRel stack stack') (h : ParsedHead) :
    Lockstep StepRel (skipBody o.strict inp stack h) (skipBody o.lax inp stack' h) := by
  rintro s _ rfl
  have hlevel : ∀ isMap remaining, StepRel (.again ({ isMap, remaining } :: stack))
    (.again ({ isMap, remaining } :: stack')) :=
    fun _ _ => .again (.cons ⟨rfl, rfl, rfl⟩ hstack)
  have string : ∀ isText, h.mt = strMajor isText →
      Matches StepRel (skipBody o.strict inp stack h s) (skipBody o.lax inp stack' h s) := by
    intro isText hmt
    rw [skipBody_string_eq hmt, skipBody_string_eq hmt]
    have hread := lockstep_readString o inp h (strMajor isText) s s rfl
    cases hx : readString o.strict inp h (strMajor isText) s with
    | error e t =>
      cases hy : readString o.lax inp h (strMajor isText) s with
      | error e' t' => trivial
      | ok r' t' =>
        rw [hx, hy] at hread
        exact Matches.giveUp hread _
    | ok r t =>
      cases hy : readString o.lax inp h (strMajor isText) s with
      | error e' t' =>
        rw [hx, hy] at hread
        exact hread.elim
      | ok r' t' =>
        rw [hx, hy] at hread
        obtain ⟨rfl, rfl⟩ := hread
        simp only [show o.strict.validateUtf8 = o.lax.validateUtf8 from rfl]
        split
        · trivial
        · exact ⟨.done hstack, rfl⟩
  by_cases hbytes : h.mt = .bytes
  · exact string false hbytes
  by_cases htext : h.mt = .text
  · exact string true htext
  unfold skipBody
  cases hm : h.mt with
  | uint | nint => exact ⟨.done hstack, rfl⟩
  | bytes => exact absurd hm hbytes
  | text => exact absurd hm htext
  | array | map =>
    simp only
    split
    · rename_i hdepth
      rw [if_pos (show o.lax.maxDepth ≤ s.depth from hdepth)]
      trivial
    · rename_i hdepth
      rw [if_neg (show ¬ o.lax.maxDepth ≤ s.depth from hdepth)]
      split
      · exact ⟨hlevel _ _, rfl⟩
      · split
        · exact ⟨.done hstack, rfl⟩
        · exact ⟨hlevel _ _, rfl⟩
  | tag =>
    simp only
    split
    · trivial
    · split
      · trivial
      · exact ⟨.again hstack, rfl⟩
  | simple =>
    simp only [whenStrict_strict, whenStrict_lax]
    split
    · trivial
    · cases hcheck :
        (if 25 ≤ h.ai then checkPreferredFloat (floatOf h.ai h.value) h.ai h.value s.pos
        else none) with
      | none => exact ⟨.done hstack, rfl⟩
      | some e =>
        split at hcheck
        · exact Matches.giveUp (checkPreferredFloat_code hcheck) _
        · cases hcheck

theorem lockstep_skipHead (hstack : StackRel stack stack') :
    Lockstep StepRel (skipHead o.strict inp stack) (skipHead o.lax inp stack') := by
  rintro s _ rfl
  unfold skipHead
  generalize parseHead inp s.pos = h
  simp only [whenStrict_strict, whenStrict_lax]
  split
  · trivial
  split
  · cases hstack with
    | nil => trivial
    | @cons top top' rest rest' htop hrest =>
      simp only [← htop.remaining, ← htop.isMap, ← htop.keyNext]
      split
      · trivial
      · split
        · trivial
        · exact ⟨.done hrest, rfl⟩
  split
  · trivial
  cases hcheck : checkHeadDeterministic h s.pos with
  | none => exact lockstep_skipBody hstack h s s rfl
  | some e => exact Matches.giveUp (checkHeadDeterministic_code hcheck) _

theorem stackRel_markKey (hstack : StackRel stack stack') (pos : Nat) :
    StackRel (markKey o.strict stack pos) (markKey o.lax stack' pos) := by
  cases hstack with
  | nil => exact .nil
  | @cons top top' rest rest' htop hrest =>
    have hlax : top'.mark o.lax pos = top' := if_neg fun h => nomatch h.1
    rw [markKey, markKey, hlax]
    refine .cons ?_ hrest
    unfold Level.mark
    split
    · exact ⟨htop.isMap, htop.remaining, htop.keyNext⟩
    · exact htop

/-- The strict reader gives up at a key out of order, or notes the key. -/
theorem checkKey_strict (o : Options) (inp : Bytes) (top : Level) (pos : Nat) :
    (∃ e, top.checkKey o.strict inp pos = .error e ∧ e.code = .nonDeterministic) ∨
      ∃ top', top.checkKey o.strict inp pos = .ok top' ∧ LevelRel top' top := by
  unfold Level.checkKey
  split
  · simp only
    split
    · rename_i e he
      refine .inl ⟨_, rfl, ?_⟩
      split at he
      · exact keyOrderError_code he
      · cases he
    · exact .inr ⟨_, rfl, ⟨rfl, rfl, rfl⟩⟩
  · exact .inr ⟨_, rfl, ⟨rfl, rfl, rfl⟩⟩

theorem LevelRel.flip {a b : Level} (h : LevelRel a b) : LevelRel a.flip b.flip := by
  unfold Level.flip
  split
  · rename_i hmap
    rw [if_pos (h.isMap ▸ hmap)]
    exact ⟨h.isMap, h.remaining, congrArg Bool.not h.keyNext⟩
  · rename_i hmap
    rw [if_neg (h.isMap ▸ hmap)]
    exact h

theorem LevelRel.count {a b : Level} (h : LevelRel a b) : Option.Rel LevelRel a.count b.count := by
  unfold Level.count
  rw [h.remaining]
  split
  · simp only
    split
    · exact .none
    · exact .some ⟨h.isMap, rfl, h.keyNext⟩
  · exact .some h

theorem LevelRel.trans {a b c : Level} (h : LevelRel a b) (h' : LevelRel b c) : LevelRel a c :=
  ⟨h.isMap.trans h'.isMap, h.remaining.trans h'.remaining, h.keyNext.trans h'.keyNext⟩

theorem lockstep_itemDone (hstack : StackRel stack stack') :
    Lockstep StackRel (itemDone o.strict inp stack) (itemDone o.lax inp stack') := by
  induction hstack with
  | nil =>
    rintro s _ rfl
    exact ⟨.nil, rfl⟩
  | @cons top top' rest rest' htop hrest ih =>
    rintro s _ rfl
    have hlax : top'.checkKey o.lax inp s.pos = .ok top' := if_neg fun h => nomatch h.1
    unfold itemDone
    rw [hlax]
    rcases checkKey_strict o inp top s.pos with ⟨e, he, hcode⟩ | ⟨top₁, htop₁, hrel⟩
    · rw [he]
      exact Matches.giveUp hcode _
    · rw [htop₁]
      have hcount := (hrel.trans htop).flip.count
      simp only
      generalize top₁.flip.count = x at hcount
      generalize top'.flip.count = y at hcount
      cases hcount with
      | none => exact ih _ _ rfl
      | some h => exact ⟨.cons h hrest, rfl⟩

theorem lockstep_skipLoop (fuel : Nat) (hstack : StackRel stack stack') :
    Lockstep Eq (skipLoop o.strict inp fuel stack) (skipLoop o.lax inp fuel stack') := by
  induction fuel generalizing stack stack' with
  | zero =>
    rintro s _ rfl
    trivial
  | succ fuel ih =>
    rintro s _ rfl
    unfold skipLoop
    split
    · trivial
    have hhead : Matches StepRel (skipHead o.strict inp (markKey o.strict stack s.pos) s)
        (skipHead o.lax inp (markKey o.lax stack' s.pos) s) :=
      lockstep_skipHead (stackRel_markKey hstack s.pos) s s rfl
    cases hx : skipHead o.strict inp (markKey o.strict stack s.pos) s with
    | error e t =>
      cases hy : skipHead o.lax inp (markKey o.lax stack' s.pos) s with
      | error e' t' => trivial
      | ok step' t' =>
        rw [hx, hy] at hhead
        exact Matches.giveUp hhead _
    | ok step t =>
      cases hy : skipHead o.lax inp (markKey o.lax stack' s.pos) s with
      | error e' t' =>
        rw [hx, hy] at hhead
        exact hhead.elim
      | ok step' t' =>
        rw [hx, hy] at hhead
        obtain ⟨hstep, rfl⟩ := hhead
        cases hstep with
        | again h => exact ih h t t rfl
        | @done a b h =>
          have hdone : Matches StackRel (itemDone o.strict inp a t) (itemDone o.lax inp b t) :=
            lockstep_itemDone h t t rfl
          simp only
          cases hx' : itemDone o.strict inp a t with
          | error e u =>
            cases hy' : itemDone o.lax inp b t with
            | error e' u' => trivial
            | ok l' u' =>
              rw [hx', hy'] at hdone
              exact Matches.giveUp hdone _
          | ok l u =>
            cases hy' : itemDone o.lax inp b t with
            | error e' u' =>
              rw [hx', hy'] at hdone
              exact hdone.elim
            | ok l' u' =>
              rw [hx', hy'] at hdone
              obtain ⟨hrel, rfl⟩ := hdone
              cases hrel with
              | nil => exact ⟨rfl, rfl⟩
              | cons htop hrest => exact ih (.cons htop hrest) u u rfl

theorem lockstep_skipValue : Lockstep Eq (skipValue o.strict inp) (skipValue o.lax inp) := by
  rintro s _ rfl
  exact lockstep_skipLoop _ .nil s s rfl

end Skip

/-! ### The look-ahead at a key -/

/-- The state that a run ends in. -/
def endState {α : Type} : EStateM.Result Error State α → State
  | .ok _ s => s
  | .error _ s => s

/-- The run changes no more of the state than the position and the depth. -/
def Keeps {α : Type} (m : M α) : Prop :=
  ∀ s, (endState (m s)).start = s.start ∧ (endState (m s)).collected = s.collected

theorem keeps_readChunks (o : Options) (inp : Bytes) (m : Major) (fuel : Nat) (scratch : Bytes) :
    Keeps (readChunks o inp m fuel scratch) := by
  induction fuel generalizing scratch with
  | zero => exact fun s => ⟨rfl, rfl⟩
  | succ fuel ih =>
    intro s
    simp only [readChunks]
    repeat' split
    all_goals first | exact ⟨rfl, rfl⟩ | exact ih _ _

theorem keeps_readString (o : Options) (inp : Bytes) (h : ParsedHead) (m : Major) :
    Keeps (readString o inp h m) := by
  intro s
  unfold readString
  split
  · split <;> exact ⟨rfl, rfl⟩
  split
  · exact ⟨rfl, rfl⟩
  have hchunks := keeps_readChunks o inp m (inp.length - (s.pos + h.length)) [] (s.advance h.length)
  split
  · rename_i heq
    rw [heq] at hchunks
    exact hchunks
  · rename_i heq
    rw [heq] at hchunks
    exact hchunks

theorem keeps_skipBody (o : Options) (inp : Bytes) (stack : List Level) (h : ParsedHead) :
    Keeps (skipBody o inp stack h) := by
  intro s
  have hstring := keeps_readString o inp h h.mt s
  unfold skipBody
  cases hm : h.mt with
  | uint | nint => exact ⟨rfl, rfl⟩
  | bytes | text =>
    rw [hm] at hstring
    simp only
    split
    · rename_i heq
      rw [heq] at hstring
      exact hstring
    · rename_i heq
      rw [heq] at hstring
      split <;> exact hstring
  | array | map | tag | simple =>
    simp only
    repeat' split
    all_goals exact ⟨rfl, rfl⟩

theorem keeps_skipHead (o : Options) (inp : Bytes) (stack : List Level) :
    Keeps (skipHead o inp stack) := by
  intro s
  unfold skipHead
  simp only
  repeat' split
  all_goals first | exact ⟨rfl, rfl⟩ | exact keeps_skipBody o inp _ _ s

theorem keeps_itemDone (o : Options) (inp : Bytes) (stack : List Level) :
    Keeps (itemDone o inp stack) := by
  induction stack with
  | nil => exact fun s => ⟨rfl, rfl⟩
  | cons top rest ih =>
    intro s
    unfold itemDone
    repeat' split
    all_goals first | exact ⟨rfl, rfl⟩ | exact ih { s with depth := s.depth - 1 }

theorem keeps_skipLoop (o : Options) (inp : Bytes) (fuel : Nat) (stack : List Level) :
    Keeps (skipLoop o inp fuel stack) := by
  induction fuel generalizing stack with
  | zero => exact fun s => ⟨rfl, rfl⟩
  | succ fuel ih =>
    intro s
    unfold skipLoop
    split
    · exact ⟨rfl, rfl⟩
    have hhead := keeps_skipHead o inp (markKey o stack s.pos) s
    cases hx : skipHead o inp (markKey o stack s.pos) s with
    | error e t =>
      rw [hx] at hhead
      exact hhead
    | ok step t =>
      rw [hx] at hhead
      cases step with
      | again stack => exact ⟨(ih stack t).1.trans hhead.1, (ih stack t).2.trans hhead.2⟩
      | done stack =>
        have hdone := keeps_itemDone o inp stack t
        simp only
        cases hy : itemDone o inp stack t with
        | error e u =>
          rw [hy] at hdone
          exact ⟨hdone.1.trans hhead.1, hdone.2.trans hhead.2⟩
        | ok left u =>
          rw [hy] at hdone
          cases left with
          | nil => exact ⟨hdone.1.trans hhead.1, hdone.2.trans hhead.2⟩
          | cons top rest =>
            have hrest := ih (top :: rest) u
            exact ⟨hrest.1.trans (hdone.1.trans hhead.1), hrest.2.trans (hdone.2.trans hhead.2)⟩

/-- After a skip, whatever became of it, the saved word leads back to the very state. -/
theorem restore_skipValue (o : Options) (inp : Bytes) {s : State} (hpos : s.pos < 2 ^ 48)
    (hdepth : s.depth < 2 ^ 16) :
    (endState (skipValue o inp s)).restore s.save = s := by
  obtain ⟨hstart, hcollected⟩ := keeps_skipLoop o inp (inp.length - s.pos) [] s
  rw [restore_save hpos hdepth, skipValue]
  cases s
  simp_all

/-- Cursors that have as much left. -/
def CursorRel (c c' : MapCursor) : Prop := c.remaining = c'.remaining

theorem keyAhead_lax (c : MapCursor) (s : State) :
    MapCursor.keyAhead o.lax inp c s = .ok (true, c) s :=
  if_neg Bool.false_ne_true

theorem matches_keyAhead (o : Options) (inp : Bytes) {c c' : MapCursor} {s : State}
    (hpos : s.pos < 2 ^ 48) (hdepth : s.depth < 2 ^ 16) (hc : CursorRel c c') :
    Matches (fun x y => x.1 = y.1 ∧ CursorRel x.2 y.2) (MapCursor.keyAhead o.strict inp c s)
      (MapCursor.keyAhead o.lax inp c' s) := by
  have hback := restore_skipValue o.strict inp hpos hdepth
  rw [keyAhead_lax, MapCursor.keyAhead, if_pos (show o.strict.requireDeterministic = true from rfl)]
  cases hskip : Cbor.skipValue o.strict inp s with
  | error e t =>
    rw [hskip] at hback
    exact ⟨⟨rfl, hc⟩, hback⟩
  | ok u t =>
    rw [hskip] at hback
    simp only
    split
    · rename_i e he
      refine Matches.giveUp ?_ _
      split at he
      · exact keyOrderError_code he
      · cases he
    · exact ⟨⟨rfl, hc⟩, hback⟩

/-! ### The readers -/

/-- A place in the input, within the limit of nesting. -/
structure Bounded (o : Options) (inp : Bytes) (s : State) : Prop where
  pos : s.pos ≤ inp.length
  depth : s.depth ≤ o.maxDepth

theorem Spans.bounded {o' : Options} {s t : State} (hspan : Spans o' inp s t)
    (hs : Bounded o inp s) : Bounded o inp t := by
  obtain ⟨x, r, -, hin, hpos, hdepth⟩ := hspan
  have hlen := congrArg List.length hin
  have hx := x.bytes_pos
  rw [List.length_drop, List.length_append] at hlen
  exact ⟨by omega, hdepth.trans_le hs.depth⟩

theorem Tagged.bounded {s t : State} (h : Tagged inp s t) (hs : Bounded o inp s) :
    Bounded o inp t := by
  induction h with
  | same h => exact ⟨h.1.trans_le hs.pos, h.2.trans_le hs.depth⟩
  | @tag s t u h r hin ht _ ih =>
    have hlen := congrArg List.length hin
    have hbytes := h.bytes_length .tag
    rw [List.length_drop, List.length_append] at hlen
    exact ih ⟨by omega, ht.2.trans_le hs.depth⟩

theorem Ends.bounded {remaining : Option Nat} {s t : State} (h : Ends inp remaining s t)
    (hs : Bounded o inp s) :
    Bounded o inp t := by
  obtain ⟨-, rfl⟩ | ⟨-, hbrk, rfl⟩ := h
  · exact ⟨hs.pos, (Nat.sub_le _ _).trans hs.depth⟩
  · obtain ⟨r, hr⟩ := List.head?_eq_some_iff.1 hbrk
    have hlen := congrArg List.length hr
    rw [List.length_drop, List.length_cons] at hlen
    refine ⟨?_, (Nat.sub_le _ _).trans hs.depth⟩
    show s.pos + 1 ≤ inp.length
    omega

/-- One and the same state, at a place in the input. -/
def Together (o : Options) (inp : Bytes) (s t : State) : Prop := s = t ∧ Bounded o inp s

/-- An operation in lockstep that does not leave the input. -/
theorem Lockstep.together {α β : Type} {rel : α → β → Prop} {m : M α} {n : M β}
    (h : Lockstep rel m n) (hbound : ∀ {s b t}, n s = .ok b t → Bounded o inp s → Bounded o inp t) :
    OpSim (· = .nonDeterministic) (Together o inp) rel m n := by
  rintro s _ ⟨rfl, hs⟩
  have hagree := h s s rfl
  cases hm : m s with
  | ok a t =>
    cases hn : n s with
    | ok b u =>
      rw [hm, hn] at hagree
      obtain ⟨hrel, rfl⟩ := hagree
      exact ⟨hrel, rfl, hbound hn hs⟩
    | error e u =>
      rw [hm, hn] at hagree
      exact hagree.elim
  | error e t =>
    rw [hm] at hagree
    cases hn : n s with
    | ok b u =>
      rw [hn] at hagree
      exact hagree
    | error e' u => trivial

end VCodec.Cbor
