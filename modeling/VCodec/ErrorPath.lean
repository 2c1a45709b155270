import VCodec.Error
import Mathlib.Data.List.GetD
import Mathlib.Data.List.TakeWhile

/-!
# The path of an error

Frames push their steps while a failure unwinds, and an entry point reverses them. Before that a
full path refuses a step; behind it a late step replaces the one nearest the root. The texts of keys
are views into a store of the error's own, which a copy binds again.
-/

namespace VCodec

/-- A call that builds a path. -/
inductive PathCall
  | member (identifier : Bytes)
  | index (i : Nat)
  | key (text : Bytes)
  | keyInt (k : Nat)
  | finalize
  deriving DecidableEq, Repr

def PathCall.step : PathCall → Option PathStep
  | .member n => some (.member n)
  | .index i => some (.index i)
  | .key k => some (.keyText k)
  | .keyInt k => some (.keyInt k)
  | .finalize => none

namespace Error

def call (e : Error) : PathCall → Error
  | .member n => e.pushMember n
  | .index i => e.pushIndex i
  | .key k => e.pushKey k
  | .keyInt k => e.pushKeyInt k
  | .finalize => e.finalize

def calls (e : Error) (cs : List PathCall) : Error := cs.foldl call e

end Error

/-! ### What the calls say -/

/-- The steps that are pushed, leaf first. -/
def pushed (cs : List PathCall) : List PathStep := cs.filterMap PathCall.step

/-- The calls before the first `finalize`, and the others. -/
def unwinding (cs : List PathCall) : List PathCall := cs.takeWhile (· ≠ .finalize)

def belated (cs : List PathCall) : List PathCall := cs.dropWhile (· ≠ .finalize)

/-- The steps that are pushed behind a `finalize` when sixteen have been pushed. -/
def overdue (cs : List PathCall) : List PathStep :=
  (pushed (belated cs)).drop (maxPathSteps - (pushed (unwinding cs)).length)

/-- The steps that stay in the path, leaf first. -/
def retained (cs : List PathCall) : List PathStep :=
  match (overdue cs).getLast? with
  | none => (pushed cs).take maxPathSteps
  | some s => (pushed cs).take (maxPathSteps - 1) ++ [s]

theorem pushed_append (cs ds : List PathCall) :
    pushed (cs ++ ds) = pushed cs ++ pushed ds := List.filterMap_append

theorem unwinding_append_belated (cs : List PathCall) : unwinding cs ++ belated cs = cs :=
  List.takeWhile_append_dropWhile

theorem finalize_not_mem_unwinding (cs : List PathCall) :
    PathCall.finalize ∉ unwinding cs := fun h => by
  simpa using List.mem_takeWhile_imp h

theorem belated_eq_nil_or (cs : List PathCall) :
    belated cs = [] ∨ ∃ ds, belated cs = .finalize :: ds := by
  unfold belated
  induction cs with
  | nil => exact .inl rfl
  | cons c cs ih =>
    by_cases hc : c = .finalize
    · subst hc
      exact .inr ⟨cs, rfl⟩
    · rw [List.dropWhile_cons, if_pos (decide_eq_true hc)]
      exact ih

/-! ### The path that they build -/

namespace Error

theorem calls_append (e : Error) (cs ds : List PathCall) :
    e.calls (cs ++ ds) = (e.calls cs).calls ds :=
  List.foldl_append

/-- A call other than `finalize` is a push. -/
theorem call_eq_push {c : PathCall} (hc : c ≠ .finalize) : ∃ s, c.step = some s ∧ ∀ e :
    Error, e.call c = e.push s := by
  cases c with
  | member n => exact ⟨_, rfl, fun _ => rfl⟩
  | index i => exact ⟨_, rfl, fun _ => rfl⟩
  | key k => exact ⟨_, rfl, fun _ => rfl⟩
  | keyInt k => exact ⟨_, rfl, fun _ => rfl⟩
  | finalize => exact absurd rfl hc

/-- Until the path is reversed it fills from the leaf. -/
theorem calls_unwinding {cs : List PathCall} (hcs : PathCall.finalize ∉ cs) {e : Error}
    (hfinal : e.finalized = false) (hlen : e.steps.length ≤ maxPathSteps) :
    (e.calls cs).finalized = false ∧ (e.calls cs).steps = (e.steps ++ pushed cs).take maxPathSteps ∧
      ((e.calls cs).truncated = true ↔ e.truncated = true ∨
        maxPathSteps < e.steps.length + (pushed cs).length) := by
  induction cs generalizing e with
  | nil =>
    refine ⟨hfinal, ?_, ?_⟩
    · show e.steps = (e.steps ++ []).take maxPathSteps
      rw [List.append_nil, List.take_of_length_le hlen]
    · exact (or_iff_left (not_lt.2 hlen)).symm
  | cons c cs ih =>
    rw [List.mem_cons, not_or] at hcs
    obtain ⟨s, hs, hcall⟩ := call_eq_push (Ne.symm hcs.1)
    have hpushed : pushed (c :: cs) = s :: pushed cs := List.filterMap_cons_some hs
    have hstep : e.calls (c :: cs) = (e.push s).calls cs := congrArg (calls · cs) (hcall e)
    rw [hpushed, hstep]
    by_cases hfull : maxPathSteps ≤ e.steps.length
    · have hpush : e.push s = { e with truncated := true } := by
        unfold push
        rw [hfinal, if_neg Bool.false_ne_true, if_pos hfull]
      rw [hpush]
      obtain ⟨hf, hsteps, htrunc⟩ := ih hcs.2 (e := { e with truncated := true }) hfinal hlen
      refine ⟨hf, ?_, htrunc.trans (iff_of_true (.inl rfl) (.inr ?_))⟩
      · rw [hsteps, List.take_append_of_le_length hfull, List.take_append_of_le_length hfull]
      · rw [List.length_cons]
        omega
    · have hpush : e.push s = { e with steps := e.steps ++ [s] } := by
        unfold push
        rw [hfinal, if_neg Bool.false_ne_true, if_neg hfull]
      rw [hpush]
      obtain ⟨hf, hsteps, htrunc⟩ := ih hcs.2 (e := { e with steps := e.steps ++ [s] }) hfinal
        (by rw [List.length_append, List.length_singleton]; omega)
      refine ⟨hf, ?_, htrunc.trans (or_congr_right ?_)⟩
      · rw [hsteps, List.append_assoc, List.singleton_append]
      · rw [List.length_append, List.length_singleton, List.length_cons, Nat.add_assoc,
          Nat.add_comm 1]

/-- What late steps make of a path, leaf first. -/
def late (l p : List PathStep) : List PathStep :=
  match (p.drop (maxPathSteps - l.length)).getLast? with
  | none => l ++ p
  | some s => (l ++ p).take (maxPathSteps - 1) ++ [s]

theorem late_nil (l : List PathStep) : late l [] = l := by
  unfold late
  rw [List.drop_nil, List.getLast?_nil, List.append_nil]

theorem late_room {l : List PathStep} (h : l.length < maxPathSteps) (s : PathStep)
    (p : List PathStep) :
    late l (s :: p) = late (l ++ [s]) p := by
  unfold late
  have hdrop : maxPathSteps - l.length = maxPathSteps - (l ++ [s]).length + 1 := by
    rw [List.length_append, List.length_singleton]
    omega
  rw [hdrop, List.drop_succ_cons, List.append_assoc, List.singleton_append]

theorem late_full {l : List PathStep} (h : l.length = maxPathSteps) (s : PathStep)
    (p : List PathStep) :
    late l (s :: p) = late (l.take (maxPathSteps - 1) ++ [s]) p := by
  have hlen : (l.take (maxPathSteps - 1) ++ [s]).length = maxPathSteps := by
    rw [List.length_append, List.length_take, List.length_singleton, h]
    rfl
  unfold late
  rw [h, hlen, Nat.sub_self, List.drop_zero, List.drop_zero, List.getLast?_cons]
  cases hp : p.getLast? with
  | none =>
    obtain rfl := List.getLast?_eq_none_iff.1 hp
    rw [List.append_nil, List.take_append_of_le_length (by omega)]
    rfl
  | some s' =>
    have htake : (l.take (maxPathSteps - 1)).length = maxPathSteps - 1 := by
      rw [List.length_take, h]
      rfl
    rw [List.take_append_of_le_length (by omega), List.append_assoc,
      List.take_append_of_le_length htake.ge,
      List.take_take, Nat.min_self]
    rfl

/-- Behind `finalize` a step that finds the path full takes the place nearest the root. -/
theorem calls_belated (cs : List PathCall) {e : Error} (hfinal : e.finalized = true)
    (hlen : e.steps.length ≤ maxPathSteps) :
    (e.calls cs).finalized = true ∧ (e.calls cs).steps =
      (late e.steps.reverse (pushed cs)).reverse ∧
      ((e.calls cs).truncated = true ↔ e.truncated = true ∨
        maxPathSteps < e.steps.length + (pushed cs).length) := by
  induction cs generalizing e with
  | nil =>
    refine ⟨hfinal, ?_, ?_⟩
    · show e.steps = (late e.steps.reverse []).reverse
      rw [late_nil, List.reverse_reverse]
    · exact (or_iff_left (not_lt.2 hlen)).symm
  | cons c cs ih =>
    by_cases hc : c = .finalize
    · subst hc
      have hstep : e.calls (.finalize :: cs) = e.calls cs := by
        have hsame : e.finalize = e := by
          unfold finalize
          rw [if_pos hfinal]
        exact congrArg (calls · cs) hsame
      rw [hstep]
      exact ih hfinal hlen
    · obtain ⟨s, hs, hcall⟩ := call_eq_push hc
      have hpushed : pushed (c :: cs) = s :: pushed cs := List.filterMap_cons_some hs
      have hstep : e.calls (c :: cs) = (e.push s).calls cs := congrArg (calls · cs) (hcall e)
      rw [hpushed, hstep]
      by_cases hfull : maxPathSteps ≤ e.steps.length
      · have hpush : e.push s = { e with truncated := true, steps := s :: e.steps.drop 1 } := by
          unfold push
          rw [hfinal, if_pos rfl, if_pos hfull]
        have hlength : e.steps.length = maxPathSteps := le_antisymm hlen hfull
        have hlen' : (s :: e.steps.drop 1).length = maxPathSteps := by
          rw [List.length_cons, List.length_drop, hlength]
          rfl
        rw [hpush]
        obtain ⟨hf, hsteps, htrunc⟩ :=
          ih (e := { e with truncated := true, steps := s :: e.steps.drop 1 }) hfinal hlen'.le
        refine ⟨hf, ?_, htrunc.trans (iff_of_true (.inl rfl) (.inr ?_))⟩
        · rw [hsteps, late_full (by rw [List.length_reverse, hlength]), List.reverse_cons,
            List.reverse_drop, hlength]
        · rw [List.length_cons]
          omega
      · have hpush : e.push s = { e with steps := s :: e.steps } := by
          unfold push
          rw [hfinal, if_pos rfl, if_neg hfull]
        rw [hpush]
        obtain ⟨hf, hsteps, htrunc⟩ := ih (e := { e with steps := s :: e.steps }) hfinal
          (by rw [List.length_cons]; omega)
        refine ⟨hf, ?_, htrunc.trans (or_congr_right ?_)⟩
        · rw [hsteps, late_room (by rw [List.length_reverse]; omega), List.reverse_cons]
        · rw [List.length_cons, List.length_cons, Nat.add_assoc, Nat.add_comm 1]

end Error

theorem pushed_eq (cs : List PathCall) :
    pushed cs = pushed (unwinding cs) ++ pushed (belated cs) := by
  rw [← pushed_append, unwinding_append_belated]

theorem late_eq_retained (cs : List PathCall) :
    Error.late ((pushed (unwinding cs)).take maxPathSteps) (pushed (belated cs)) = retained cs := by
  have hroom : maxPathSteps - ((pushed (unwinding cs)).take maxPathSteps).length =
      maxPathSteps - (pushed (unwinding cs)).length := by
    rw [List.length_take]
    omega
  unfold Error.late retained overdue
  rw [hroom, pushed_eq cs]
  cases hlast :
    ((pushed (belated cs)).drop (maxPathSteps - (pushed (unwinding cs)).length)).getLast? with
  | none =>
    have hle := List.drop_eq_nil_iff.1 (List.getLast?_eq_none_iff.1 hlast)
    show _ ++ _ = List.take maxPathSteps (_ ++ _)
    rw [List.take_append, List.take_of_length_le hle]
  | some s =>
    show List.take (maxPathSteps - 1) (_ ++ _) ++ [s] = List.take (maxPathSteps - 1) (_ ++ _) ++ [s]
    rw [List.take_append, List.take_append, List.take_take, List.length_take]
    have hmin : min (maxPathSteps - 1) maxPathSteps = maxPathSteps - 1 := by decide
    have hdiff : maxPathSteps - 1 - min maxPathSteps (pushed (unwinding cs)).length =
        maxPathSteps - 1 - (pushed (unwinding cs)).length := by omega
    rw [hmin, hdiff]

/-- An error whose path is empty. -/
def freshError (code : Errc) (offset : Nat) : Error := { code, offset }

/-- The path holds the steps that stay, root first. -/
theorem calls_finalize (code : Errc) (offset : Nat) (cs : List PathCall) :
    ((freshError code offset).calls cs).finalize.steps = (retained cs).reverse ∧
      (((freshError code offset).calls cs).finalize.truncated = true ↔
        maxPathSteps < (pushed cs).length) := by
  have hmax : 0 ≤ maxPathSteps := Nat.zero_le _
  obtain ⟨hf, hsteps, htrunc⟩ := Error.calls_unwinding (finalize_not_mem_unwinding cs)
    (e := freshError code offset) rfl hmax
  have hsteps : ((freshError code offset).calls (unwinding cs)).steps =
    (pushed (unwinding cs)).take maxPathSteps := hsteps
  have htrunc : ((freshError code offset).calls (unwinding cs)).truncated = true ↔
      maxPathSteps < (pushed (unwinding cs)).length := by
    refine htrunc.trans ((or_iff_right Bool.false_ne_true).trans ?_)
    rw [show (freshError code offset).steps.length = 0 from rfl, Nat.zero_add]
  have hreverse : ∀ e : Error, e.finalized = false →
      e.finalize = { e with steps := e.steps.reverse, finalized := true } := by
    intro e he
    unfold Error.finalize
    rw [he, if_neg Bool.false_ne_true]
  have hsplit : (freshError code offset).calls cs =
    ((freshError code offset).calls (unwinding cs)).calls (belated cs) := by
    rw [← Error.calls_append, unwinding_append_belated]
  rw [← late_eq_retained, pushed_eq cs, hsplit]
  rcases belated_eq_nil_or cs with hnil | ⟨ds, hds⟩
  · have hnone : ((freshError code offset).calls (unwinding cs)).calls [] =
      (freshError code offset).calls (unwinding cs) :=
      rfl
    have hpushed : pushed [] = [] := rfl
    rw [hnil, hnone, hpushed, Error.late_nil, hreverse _ hf, List.append_nil]
    exact ⟨congrArg List.reverse hsteps, htrunc⟩
  · have hfirst : ((freshError code offset).calls (unwinding cs)).calls (.finalize :: ds) =
        ((freshError code offset).calls (unwinding cs)).finalize.calls ds := rfl
    have hpushed : pushed (.finalize :: ds) = pushed ds := rfl
    rw [hds, hfirst, hpushed, hreverse _ hf]
    obtain ⟨hf', hsteps', htrunc'⟩ := Error.calls_belated ds
      (e := { (freshError code offset).calls (unwinding cs) with
        steps := ((freshError code offset).calls (unwinding cs)).steps.reverse, finalized := true })
          rfl
      (by
        show (List.reverse _).length ≤ _
        rw [hsteps, List.length_reverse, List.length_take]
        omega)
    have hdone : ∀ e : Error, e.finalized = true → e.finalize = e := by
      intro e he
      unfold Error.finalize
      rw [if_pos he]
    rw [hdone _ hf', hsteps', htrunc']
    show (Error.late (List.reverse (List.reverse _)) _).reverse = _ ∧
      (_ = true ∨ _ < (List.reverse _).length + _ ↔ _)
    rw [List.reverse_reverse, List.length_reverse, hsteps, htrunc, List.length_take,
      List.length_append]
    refine ⟨rfl, ?_⟩
    omega

/-- The path is what the first sixteen pushes make it, and the flag tells of more. -/
def KeepsLeaf (code : Errc) (offset : Nat) (cs : List PathCall) : Prop :=
  ((freshError code offset).calls cs).finalize.steps = ((pushed cs).take maxPathSteps).reverse ∧
    (((freshError code offset).calls cs).finalize.truncated = true ↔
      maxPathSteps < (pushed cs).length)

/-- A step that comes too late and behind `finalize` takes the place of the sixteenth. -/
theorem keepsLeaf_iff (code : Errc) (offset : Nat) (cs : List PathCall) :
    KeepsLeaf code offset cs ↔ ∀ s ∈ (overdue cs).getLast?,
      (pushed cs)[maxPathSteps - 1]? = some s := by
  obtain ⟨hsteps, htrunc⟩ := calls_finalize code offset cs
  unfold KeepsLeaf
  rw [hsteps, and_iff_left htrunc, List.reverse_inj]
  unfold retained
  cases hlast : (overdue cs).getLast? with
  | none => exact iff_of_true rfl fun s hs => nomatch hs
  | some s =>
    have hlt : maxPathSteps - 1 < (pushed cs).length := by
      have hne : overdue cs ≠ [] := by
        rintro hnil
        rw [hnil] at hlast
        cases hlast
      have hgt : ¬ (pushed (belated cs)).length ≤ maxPathSteps - (pushed (unwinding cs)).length :=
        fun hle => hne (List.drop_eq_nil_of_le hle)
      rw [pushed_eq, List.length_append]
      omega
    have htake : (pushed cs).take maxPathSteps =
      (pushed cs).take (maxPathSteps - 1) ++ [(pushed cs)[maxPathSteps - 1]] :=
      (List.take_append_getElem hlt).symm
    rw [List.getElem?_eq_getElem hlt, htake, List.append_cancel_left_eq, List.singleton_inj]
    constructor
    · rintro h t ⟨⟩
      rw [h]
    · intro h
      exact (Option.some_inj.1 (h s rfl)).symm

/-- A seventeenth step that finds the path reversed takes the sixteenth's place. -/
theorem keepsLeaf_late :
    ¬ KeepsLeaf .typeMismatch 0 (List.replicate 16 (.index 0) ++ [.finalize, .index 1]) := by
  intro h
  have hsteps := h.1
  revert hsteps
  decide

/-! ### Copies -/

/-- A step as an error stores it: the text of a key is a view of a string in the error's store. -/
inductive StoredStep
  | member (identifier : Bytes)
  | index (i : Nat)
  | key (slot : Nat)
  | keyInt (k : Nat)
  deriving DecidableEq, Repr

/-- The part of an error that a path is made of. `owned` is the storage for the texts of keys. -/
structure StoredPath where
  steps : List StoredStep := []
  owned : List Bytes := []
  truncated : Bool := false
  finalized : Bool := false
  deriving DecidableEq, Repr

namespace StoredPath

def push (p : StoredPath) (s : StoredStep) : StoredPath :=
  if p.finalized then
    if maxPathSteps ≤ p.steps.length then { p with truncated := true, steps := s :: p.steps.drop 1 }
    else { p with steps := s :: p.steps }
  else if maxPathSteps ≤ p.steps.length then { p with truncated := true }
  else { p with steps := p.steps ++ [s] }

/-- The text goes into the store, whether or not the step finds room. -/
def pushKey (p : StoredPath) (text : Bytes) : StoredPath :=
  { p with owned := p.owned ++ [text] }.push (.key p.owned.length)

def finalize (p : StoredPath) : StoredPath :=
  if p.finalized then p else { p with steps := p.steps.reverse, finalized := true }

/-- Bind the key steps, in the order in which they stand, to the texts of the store, in theirs. -/
def rebind (owned : List Bytes) : Nat → List StoredStep → List StoredStep
  | _, [] => []
  | it, .key slot :: ss =>
    if it < owned.length then .key it :: rebind owned (it + 1) ss else .key slot ::
      rebind owned it ss
  | it, s :: ss => s :: rebind owned it ss

/-- Copy construction and copy assignment. -/
def copy (p : StoredPath) : StoredPath := { p with steps := rebind p.owned 0 p.steps }

def call (p : StoredPath) : PathCall → StoredPath
  | .member n => p.push (.member n)
  | .index i => p.push (.index i)
  | .key k => p.pushKey k
  | .keyInt k => p.push (.keyInt k)
  | .finalize => p.finalize

def calls (p : StoredPath) (cs : List PathCall) : StoredPath := cs.foldl call p

/-- A step as an observer sees it. -/
def shown (owned : List Bytes) : StoredStep → PathStep
  | .member n => .member n
  | .index i => .index i
  | .key slot => .keyText (owned.getD slot [])
  | .keyInt k => .keyInt k

def path (p : StoredPath) : List PathStep := p.steps.map (shown p.owned)

/-- Every view is one of a string in the store. -/
def Bound (p : StoredPath) : Prop := ∀ slot, .key slot ∈ p.steps → slot < p.owned.length

end StoredPath

/-- The stored path shows the path of the error. -/
structure Stores (p : StoredPath) (e : Error) : Prop where
  bound : p.Bound
  path : p.path = e.steps
  truncated : p.truncated = e.truncated
  finalized : p.finalized = e.finalized

namespace Stores

open StoredPath

variable {p : StoredPath} {e : Error}

theorem length (h : Stores p e) : p.steps.length = e.steps.length := by
  rw [← h.path]
  exact (List.length_map _).symm

theorem push (h : Stores p e) {s : StoredStep}
    (hs : ∀ slot, s = .key slot → slot < p.owned.length) :
    Stores (p.push s) (e.push (shown p.owned s)) := by
  have hbound : ∀ {ss : List StoredStep}, (∀ t ∈ ss, t = s ∨ t ∈ p.steps) →
      ∀ slot, .key slot ∈ ss → slot < p.owned.length := by
    intro ss hss slot hslot
    rcases hss _ hslot with heq | hmem
    · exact hs slot heq.symm
    · exact h.bound slot hmem
  have hpath := h.path
  unfold StoredPath.path at hpath
  unfold StoredPath.push Error.push
  rw [h.finalized, h.length]
  split
  · split
    · refine ⟨hbound fun t ht => (List.mem_cons.1 ht).imp_right List.mem_of_mem_drop, ?_, rfl, rfl⟩
      show shown p.owned s :: (p.steps.drop 1).map (shown p.owned) = _
      rw [List.map_drop, hpath]
    · refine ⟨hbound fun t ht => List.mem_cons.1 ht, ?_, h.truncated, rfl⟩
      show shown p.owned s :: p.steps.map (shown p.owned) = _
      rw [hpath]
  · split
    · exact ⟨h.bound, h.path, rfl, rfl⟩
    · refine ⟨hbound fun t ht => ?_, ?_, h.truncated, rfl⟩
      · rw [List.mem_append, List.mem_singleton] at ht
        exact ht.symm
      · show (p.steps ++ [s]).map (shown p.owned) = _
        rw [List.map_append, hpath]
        rfl

theorem shown_store {owned : List Bytes} (texts : List Bytes) {s : StoredStep}
    (hs : ∀ slot, s = .key slot → slot < owned.length) :
    shown (owned ++ texts) s = shown owned s := by
  cases s with
  | key slot =>
    show PathStep.keyText _ = PathStep.keyText _
    rw [List.getD_append _ _ _ _ (hs slot rfl)]
  | _ => rfl

/-- A string that is added to the store is none that is viewed. -/
theorem store (h : Stores p e) (text : Bytes) : Stores { p with owned := p.owned ++ [text] } e where
  bound slot hslot := by
    have hlt := h.bound slot hslot
    show slot < (p.owned ++ [text]).length
    rw [List.length_append]
    omega
  path := by
    rw [← h.path]
    refine List.map_congr_left fun s hs => shown_store [text] fun slot heq =>
      h.bound slot (heq ▸ hs)
  truncated := h.truncated
  finalized := h.finalized

theorem finalize (h : Stores p e) : Stores p.finalize e.finalize := by
  unfold StoredPath.finalize Error.finalize
  rw [h.finalized]
  split
  · exact h
  · refine ⟨fun slot hslot => h.bound slot (List.mem_reverse.1 hslot), ?_, h.truncated, rfl⟩
    show p.steps.reverse.map (shown p.owned) = _
    rw [List.map_reverse]
    exact congrArg List.reverse h.path

theorem call (h : Stores p e) (c : PathCall) : Stores (p.call c) (e.call c) := by
  cases c with
  | member n => exact h.push fun slot h => nomatch h
  | index i => exact h.push fun slot h => nomatch h
  | keyInt k => exact h.push fun slot h => nomatch h
  | finalize => exact h.finalize
  | key k =>
    have hstore := h.store k
    have hlast : shown (p.owned ++ [k]) (.key p.owned.length) = .keyText k := by
      show PathStep.keyText _ = _
      rw [List.getD_append_right _ _ _ _ le_rfl, Nat.sub_self]
      rfl
    have hpush := hstore.push (s := .key p.owned.length) fun slot heq => by
      obtain rfl := StoredStep.key.inj heq
      show p.owned.length < (p.owned ++ [k]).length
      rw [List.length_append]
      exact Nat.lt_succ_self _
    rw [hlast] at hpush
    exact hpush

theorem calls (h : Stores p e) (cs : List PathCall) : Stores (p.calls cs) (e.calls cs) := by
  induction cs generalizing p e with
  | nil => exact h
  | cons c cs ih => exact ih (h.call c)

end Stores

theorem stores_fresh (code : Errc) (offset : Nat) : Stores {} (freshError code offset) :=
  ⟨fun _ h => (List.not_mem_nil h).elim, rfl, rfl, rfl⟩

/-! ### What a copy shows -/

/-- The texts of the key steps, in order. -/
def keyTexts (ss : List PathStep) : List Bytes :=
  ss.filterMap fun
    | .keyText k => some k
    | _ => none

/-- Two paths with the same steps but for the texts of keys. -/
def SameButKeys (ss ts : List PathStep) : Prop :=
  List.Forall₂ (fun s t => (∃ k l, s = .keyText k ∧ t = .keyText l) ∨ s = t ∧ keyTexts [s] = []) ss
    ts

theorem keyTexts_cons_key (k : Bytes) (ss : List PathStep) :
    keyTexts (.keyText k :: ss) = k :: keyTexts ss := rfl

theorem keyTexts_cons_other {s : PathStep} (hs : keyTexts [s] = []) (ss : List PathStep) :
    keyTexts (s :: ss) = keyTexts ss := by
  cases s with
  | keyText k => cases hs
  | _ => rfl

theorem SameButKeys.eq_iff {ss ts : List PathStep} (h : SameButKeys ss ts) :
    ss = ts ↔ keyTexts ss = keyTexts ts := by
  induction h with
  | nil => exact iff_of_true rfl rfl
  | @cons s t ss ts hst _ ih =>
    rcases hst with ⟨k, l, rfl, rfl⟩ | ⟨rfl, hs⟩
    · rw [keyTexts_cons_key, keyTexts_cons_key, List.cons.injEq, List.cons.injEq,
        PathStep.keyText.injEq, ih]
    · rw [keyTexts_cons_other hs, keyTexts_cons_other hs, List.cons.injEq, and_iff_right rfl, ih]

namespace StoredPath

/-- A copy shows the texts of the store in their order. -/
theorem shown_rebind (owned : List Bytes) (ss : List StoredStep) (it : Nat)
    (hroom : it + (keyTexts (ss.map (shown owned))).length ≤ owned.length) :
    SameButKeys ((rebind owned it ss).map (shown owned)) (ss.map (shown owned)) ∧
      keyTexts ((rebind owned it ss).map (shown owned)) =
        (owned.drop it).take (keyTexts (ss.map (shown owned))).length := by
  induction ss generalizing it with
  | nil => exact ⟨.nil, (List.take_zero).symm⟩
  | cons s ss ih =>
    have hother : ∀ t : PathStep, keyTexts [t] = [] → shown owned s = t →
      rebind owned it (s :: ss) = s :: rebind owned it ss →
        SameButKeys ((rebind owned it (s :: ss)).map (shown owned)) ((s :: ss).map (shown owned)) ∧
          keyTexts ((rebind owned it (s :: ss)).map (shown owned)) =
            (owned.drop it).take (keyTexts ((s :: ss).map (shown owned))).length := by
      rintro t ht rfl hrebind
      rw [List.map_cons, keyTexts_cons_other ht] at hroom
      obtain ⟨hsame, hkeys⟩ := ih it hroom
      rw [hrebind, List.map_cons, List.map_cons, keyTexts_cons_other ht, keyTexts_cons_other ht]
      exact ⟨.cons (.inr ⟨rfl, ht⟩) hsame, hkeys⟩
    cases s with
    | member n => exact hother (.member n) rfl rfl rfl
    | index i => exact hother (.index i) rfl rfl rfl
    | keyInt k => exact hother (.keyInt k) rfl rfl rfl
    | key slot =>
      have hkey : (StoredStep.key slot :: ss).map (shown owned) =
        .keyText (owned.getD slot []) :: ss.map (shown owned) := rfl
      rw [hkey, keyTexts_cons_key, List.length_cons] at hroom ⊢
      have hlt : it < owned.length := by omega
      obtain ⟨hsame, hkeys⟩ := ih (it + 1) (by omega)
      have hrebind : rebind owned it (.key slot :: ss) = .key it :: rebind owned (it + 1) ss :=
        if_pos hlt
      have hcopy : (StoredStep.key it :: rebind owned (it + 1) ss).map (shown owned) =
          .keyText owned[it] :: (rebind owned (it + 1) ss).map (shown owned) := by
        rw [List.map_cons, shown, List.getD_eq_getElem _ _ hlt]
      rw [hrebind, hcopy, keyTexts_cons_key, hkeys, List.drop_eq_getElem_cons hlt,
        List.take_succ_cons]
      exact ⟨.cons (.inl ⟨_, _, rfl, rfl⟩) hsame, rfl⟩

/-- A copy shows the same path exactly if the texts of the keys stand in the order of the store. -/
theorem path_copy_iff {p : StoredPath} (hroom : (keyTexts p.path).length ≤ p.owned.length) :
    p.copy.path = p.path ↔ keyTexts p.path = p.owned.take (keyTexts p.path).length := by
  obtain ⟨hsame, hkeys⟩ := shown_rebind p.owned p.steps 0 (by rwa [Nat.zero_add])
  rw [List.drop_zero] at hkeys
  refine hsame.eq_iff.trans ?_
  rw [hkeys]
  exact eq_comm

/-- A copy of a copy is like the first. -/
theorem copy_copy {p : StoredPath} (hroom : (keyTexts p.path).length ≤ p.owned.length) :
    p.copy.copy.path = p.copy.path := by
  obtain ⟨-, hkeys⟩ := shown_rebind p.owned p.steps 0 (by rwa [Nat.zero_add])
  rw [List.drop_zero] at hkeys
  have hkeys : keyTexts p.copy.path = p.owned.take (keyTexts p.path).length := hkeys
  have hlen : (keyTexts p.copy.path).length = (keyTexts p.path).length := by
    rw [hkeys, List.length_take, Nat.min_eq_left hroom]
  rw [path_copy_iff (p := p.copy) (by rw [hlen]; exact hroom), hlen]
  exact hkeys

theorem copies_eq {p : StoredPath} (hroom : (keyTexts p.path).length ≤ p.owned.length) (n : Nat) :
    (copy^[n + 1] p).path = p.copy.path := by
  have hlen : (keyTexts p.copy.path).length = (keyTexts p.path).length := by
    obtain ⟨-, hkeys⟩ := shown_rebind p.owned p.steps 0 (by rwa [Nat.zero_add])
    rw [List.drop_zero] at hkeys
    have hkeys : keyTexts p.copy.path = p.owned.take (keyTexts p.path).length := hkeys
    rw [hkeys, List.length_take, Nat.min_eq_left hroom]
  induction n generalizing p with
  | zero => rfl
  | succ n ih =>
    rw [Function.iterate_succ_apply]
    have hroom' : (keyTexts p.copy.path).length ≤ p.copy.owned.length := by
      rw [hlen]
      exact hroom
    rw [ih hroom' (by rw [copy_copy hroom]), copy_copy hroom]

theorem owned_calls (p : StoredPath) (cs : List PathCall) :
    (p.calls cs).owned = p.owned ++ keyTexts (pushed cs) := by
  have hpush : ∀ (p : StoredPath) s, (p.push s).owned = p.owned := by
    intro p s
    unfold push
    split <;> split <;> rfl
  induction cs generalizing p with
  | nil => exact (List.append_nil _).symm
  | cons c cs ih =>
    have hstep : p.calls (c :: cs) = (p.call c).calls cs := rfl
    rw [hstep, ih]
    cases c with
    | member n => exact congrArg (· ++ _) (hpush p _)
    | index i => exact congrArg (· ++ _) (hpush p _)
    | keyInt k => exact congrArg (· ++ _) (hpush p _)
    | key k =>
      have howned : (p.call (.key k)).owned = p.owned ++ [k] := hpush _ _
      rw [howned, List.append_assoc, List.singleton_append]
      rfl
    | finalize =>
      have howned : (p.call .finalize).owned = p.owned := by
        show p.finalize.owned = _
        unfold finalize
        split <;> rfl
      rw [howned]
      rfl

end StoredPath

/-! ### Copies of errors -/

theorem overdue_eq (cs : List PathCall) :
    overdue cs = (pushed cs).drop (max maxPathSteps (pushed (unwinding cs)).length) := by
  have hdiff : max maxPathSteps (pushed (unwinding cs)).length - (pushed (unwinding cs)).length =
      maxPathSteps - (pushed (unwinding cs)).length := by omega
  unfold overdue
  rw [pushed_eq cs, List.drop_append, List.drop_eq_nil_of_le (le_max_right _ _), List.nil_append,
    hdiff]

theorem retained_sublist (cs : List PathCall) : (retained cs).Sublist (pushed cs) := by
  unfold retained
  cases hlast : (overdue cs).getLast? with
  | none => exact List.take_sublist _ _
  | some s =>
    have hmem : s ∈ (pushed cs).drop (maxPathSteps - 1) := by
      have hmem := List.mem_of_getLast? hlast
      rw [overdue_eq] at hmem
      exact List.drop_subset_drop_left _ (le_trans (Nat.sub_le _ _) (le_max_left _ _)) hmem
    calc ((pushed cs).take (maxPathSteps - 1) ++ [s]).Sublist
          ((pushed cs).take (maxPathSteps - 1) ++ (pushed cs).drop (maxPathSteps - 1)) :=
        (List.Sublist.refl _).append (List.singleton_sublist.2 hmem)
      _ = pushed cs := List.take_append_drop _ _

theorem keyTexts_append (ss ts : List PathStep) :
    keyTexts (ss ++ ts) = keyTexts ss ++ keyTexts ts := List.filterMap_append

/-- The steps of an error that the calls have built. -/
theorem calls_steps (code : Errc) (offset : Nat) (cs : List PathCall) :
    ((freshError code offset).calls cs).steps =
      if .finalize ∈ cs then (retained cs).reverse else (pushed cs).take maxPathSteps := by
  split
  · rename_i hmem
    have hfinal : ((freshError code offset).calls cs).finalized = true := by
      have hkeep : ∀ (cs : List PathCall) (e : Error), e.finalized = true →
        (e.calls cs).finalized = true := by
        intro cs
        induction cs with
        | nil => exact fun e he => he
        | cons c cs ih =>
          intro e he
          refine ih (e.call c) ?_
          by_cases hc : c = .finalize
          · subst hc
            show e.finalize.finalized = true
            unfold Error.finalize
            rw [if_pos he]
            exact he
          · obtain ⟨s, -, hcall⟩ := Error.call_eq_push hc
            rw [hcall]
            unfold Error.push
            split
            · split <;> exact he
            · split <;> exact he
      obtain ⟨ds, ds', rfl⟩ := List.append_of_mem hmem
      rw [Error.calls_append]
      refine hkeep ds' _ ?_
      show ((freshError code offset).calls ds).finalize.finalized = true
      unfold Error.finalize
      split <;> trivial
    have hidle : ((freshError code offset).calls cs).finalize =
      (freshError code offset).calls cs := by
      unfold Error.finalize
      rw [if_pos hfinal]
    rw [← hidle]
    exact (calls_finalize code offset cs).1
  · rename_i hmem
    exact (Error.calls_unwinding hmem (e := freshError code offset) rfl (Nat.zero_le _)).2.1

/-- Copies of the error show the path that the error shows. -/
def CopiesPath (cs : List PathCall) : Prop :=
  ∀ n, (StoredPath.copy^[n] (({} : StoredPath).calls cs)).path = (({} : StoredPath).calls cs).path

/-- The texts of keys are paired with the key steps in push order, so behind `finalize` they must
read alike. -/
theorem copiesPath_iff (cs : List PathCall) :
    CopiesPath cs ↔
      (.finalize ∈ cs → keyTexts (retained cs).reverse =
        (keyTexts (pushed cs)).take (keyTexts (retained cs)).length) := by
  have hstores := (stores_fresh .typeMismatch 0).calls cs
  have howned : (({} : StoredPath).calls cs).owned = keyTexts (pushed cs) :=
    StoredPath.owned_calls {} cs
  have hsublist : (keyTexts (({} : StoredPath).calls cs).path).length ≤
    (({} : StoredPath).calls cs).owned.length := by
    rw [hstores.path, howned, calls_steps]
    split
    · have hlen : (keyTexts (retained cs).reverse).length = (keyTexts (retained cs)).length := by
        unfold keyTexts
        rw [List.filterMap_reverse, List.length_reverse]
      rw [hlen]
      exact ((retained_sublist cs).filterMap _).length_le
    · exact ((List.take_sublist maxPathSteps (pushed cs)).filterMap _).length_le
  have hone : CopiesPath cs ↔ (({} : StoredPath).calls cs).copy.path =
    (({} : StoredPath).calls cs).path := by
    refine ⟨fun h => h 1, fun h n => ?_⟩
    cases n with
    | zero => rfl
    | succ n => exact (StoredPath.copies_eq hsublist n).trans h
  rw [hone, StoredPath.path_copy_iff hsublist, howned, hstores.path, calls_steps]
  split
  · rename_i hmem
    have hlen : (keyTexts (retained cs).reverse).length = (keyTexts (retained cs)).length := by
      unfold keyTexts
      rw [List.filterMap_reverse, List.length_reverse]
    rw [hlen, imp_iff_right hmem]
  · rename_i hmem
    refine iff_of_true ?_ fun h => absurd h hmem
    have hsplit : keyTexts (pushed cs) =
        keyTexts ((pushed cs).take maxPathSteps) ++ keyTexts ((pushed cs).drop maxPathSteps) := by
      rw [← keyTexts_append, List.take_append_drop]
    rw [hsplit, List.take_left]

/-- Two keys change places in a copy of a finalized error. -/
theorem copiesPath_swapped : ¬ CopiesPath [.key (str "a"), .key (str "b"), .finalize] := by
  intro h
  have honce := h 1
  revert honce
  decide

end VCodec
