import VCodec.Core.Schema
import Mathlib.Data.List.Basic

/-!
# What the walk over a class lists

The walk of `collect_fields` as the list of what it meets: the members that become fields and the
complaints, in order. The walk runs over this list, and what stands in the list is told by the
classes that it visits: the class itself, the bases of a visited class, and the classes of its
flattened members. So the fields are the members of the visited classes that are neither left out
nor spliced, each once, bases first and otherwise in the order of their declaration.
-/

namespace VCodec.Schema

/-! ### What the walk meets -/

inductive Event
  | complaint (msg : Bytes)
  | field (owner : Class) (path : List Hop) (viaFlatten viaBase : Bool) (i : Nat) (m : DataMember)
      (identifier : Bytes)
    (anns : List Ann)

def step (st : BuildState) : Event → Option BuildState
  | .complaint msg => some (st.fail msg)
  | .field owner path viaFlatten viaBase i m identifier anns =>
    addField owner path viaFlatten viaBase i m identifier anns st

def describedEvents (c : ClassInfo) (ms : List DataMember) : List Event :=
  (c.describedMembers.filter fun d => ¬ ms.any fun m => m.identifier = some d.1).map fun d =>
    .complaint (describedError c d.1)

/-- What becomes of a member that is not spliced. -/
def memberEvents (c : Class) (path : List Hop) (viaFlatten viaBase : Bool) (i : Nat)
    (m : DataMember) : Treatment → List Event
  | .refuse msg => [.complaint msg]
  | .leaveOut | .splice => []
  | .field identifier anns => [.field c path viaFlatten viaBase i m identifier anns]

/-- A spliced member is replaced by what stands in it. -/
def Treatment.select (t : Treatment) (spliced own : List Event) : List Event :=
  match t with
  | .splice => spliced
  | _ => own

mutual

def classEvents (path : List Hop) (stack : List Nat) (viaFlatten viaBase : Bool) :
    Class → List Event
  | .mk info bs ms =>
    describedEvents info ms.toList ++ (baseEvents info path stack viaFlatten 0 bs ++
      membersEvents (.mk info bs ms) path stack viaFlatten viaBase 0 ms)

def baseEvents (c : ClassInfo) (path : List Hop) (stack : List Nat) (viaFlatten : Bool) (i : Nat) :
    Bases → List Event
  | .nil => []
  | .cons isVirtual b bs =>
    (if isVirtual then [.complaint (virtualBaseError c b.info)]
    else classEvents (path ++ [.base i]) stack viaFlatten true b) ++
      baseEvents c path stack viaFlatten (i + 1) bs

def membersEvents (c : Class) (path : List Hop) (stack : List Nat) (viaFlatten viaBase : Bool)
    (i : Nat) : Members → List Event
  | .nil => []
  | .plain m ms =>
    memberEvents c path viaFlatten viaBase i m (treatment c.info path.length stack m none) ++
      membersEvents c path stack viaFlatten viaBase (i + 1) ms
  | .object m mt ms =>
    (treatment c.info path.length stack m (some mt.info)).select
        (classEvents (path ++ [.member i]) (stack ++ [c.info.id]) true viaBase mt)
        (memberEvents c path viaFlatten viaBase i m
          (treatment c.info path.length stack m (some mt.info))) ++
      membersEvents c path stack viaFlatten viaBase (i + 1) ms

end

/-! ### The walk runs over it -/

@[simp] theorem fail_flattenStack (msg : Bytes) (st : BuildState) :
    (st.fail msg).flattenStack = st.flattenStack := by
  unfold BuildState.fail
  split <;> rfl

theorem step_flattenStack {st st' : BuildState} {e : Event} (h : step st e = some st') :
    st'.flattenStack = st.flattenStack := by
  cases e with
  | complaint msg =>
    cases h
    exact fail_flattenStack msg st
  | field owner path vf vb i m identifier anns =>
    have hadd : addField owner path vf vb i m identifier anns st = some st' := h
    unfold addField at hadd
    split at hadd
    · cases hadd
    · cases hadd
      rfl

theorem foldlM_flattenStack
    {es : List Event} {st st' : BuildState} (h : es.foldlM step st = some st') :
    st'.flattenStack = st.flattenStack := by
  induction es generalizing st with
  | nil =>
    cases h
    rfl
  | cons e es ih =>
    rw [List.foldlM_cons] at h
    obtain ⟨st₁, hstep, hrest⟩ := Option.bind_eq_some_iff.1 h
    rw [ih hrest, step_flattenStack hstep]

/-- Two walks, one behind the other, the second with the stack that the first leaves as it was. -/
theorem walk_append {es fs : List Event} {st : BuildState} {k : BuildState → Option BuildState}
    (hk : ∀ st', st'.flattenStack = st.flattenStack → k st' = fs.foldlM step st') :
    (es.foldlM step st >>= k) = (es ++ fs).foldlM step st := by
  rw [List.foldlM_append]
  cases h : es.foldlM step st with
  | none => rfl
  | some st' => exact hk st' (foldlM_flattenStack h)

theorem walk_cons {e : Event} {fs : List Event} {st : BuildState}
    {k : BuildState → Option BuildState}
    (hk : ∀ st', st'.flattenStack = st.flattenStack → k st' = fs.foldlM step st') :
    (step st e >>= k) = (e :: fs).foldlM step st := by
  rw [List.foldlM_cons]
  cases h : step st e with
  | none => rfl
  | some st' => exact hk st' (step_flattenStack h)

theorem checkDescribedIdentifiers_eq (c : ClassInfo) (ms : List DataMember) (st : BuildState) :
    (describedEvents c ms).foldlM step st = some (checkDescribedIdentifiers c ms st) := by
  unfold describedEvents checkDescribedIdentifiers
  induction c.describedMembers generalizing st with
  | nil => rfl
  | cons d ds ih =>
    rw [List.foldl_cons]
    by_cases hd : (ms.any fun m => m.identifier = some d.1) = true
    · rw [List.filter_cons_of_neg (by simpa using hd), if_pos hd]
      exact ih st
    · rw [List.filter_cons_of_pos (by simpa using hd), if_neg hd, List.map_cons, List.foldlM_cons]
      exact ih _

/-- The change of the stack while a member is flattened does not show. -/
theorem walk_onStack (id : Nat) {es : List Event} {st : BuildState} :
    (es.foldlM step { st with flattenStack := st.flattenStack ++ [id] } >>= fun st' =>
      some { st' with flattenStack := st'.flattenStack.dropLast }) = es.foldlM step st := by
  induction es generalizing st with
  | nil =>
    show some _ = some _
    rw [List.dropLast_concat]
  | cons e es ih =>
    have hstep : step { st with flattenStack := st.flattenStack ++ [id] } e =
        (step st e).map fun st' => { st' with flattenStack := st'.flattenStack ++ [id] } := by
      cases e with
      | complaint msg =>
        show some (BuildState.fail msg _) = some _
        unfold BuildState.fail
        split <;> rfl
      | field owner path vf vb i m identifier anns =>
        show addField _ _ _ _ _ _ _ _ _ = (addField _ _ _ _ _ _ _ _ _).map _
        unfold addField
        split <;> rfl
    rw [List.foldlM_cons, List.foldlM_cons, hstep]
    cases hs : step st e with
    | none => rfl
    | some st' => exact ih

mutual

theorem collectFields_eq (path : List Hop) (viaFlatten viaBase : Bool) (c : Class)
    (st : BuildState) :
    collectFields path viaFlatten viaBase c st =
      (classEvents path st.flattenStack viaFlatten viaBase c).foldlM step st := by
  match c with
  | .mk info bs ms =>
    rw [collectFields, classEvents, List.foldlM_append, checkDescribedIdentifiers_eq]
    have hstack : (checkDescribedIdentifiers info ms.toList st).flattenStack = st.flattenStack :=
      foldlM_flattenStack (checkDescribedIdentifiers_eq info ms.toList st)
    show (collectBases _ _ _ _ _ _ >>= _) = _
    rw [collectBases_eq info path viaFlatten 0 bs, hstack]
    refine walk_append fun st' hst' => ?_
    rw [collectMembers_eq (.mk info bs ms) path viaFlatten viaBase 0 ms st', hst', hstack]

theorem collectBases_eq (c : ClassInfo) (path : List Hop) (viaFlatten : Bool) (i : Nat) (bs : Bases)
    (st : BuildState) :
    collectBases c path viaFlatten i bs st =
      (baseEvents c path st.flattenStack viaFlatten i bs).foldlM step st := by
  match bs with
  | .nil => rfl
  | .cons isVirtual b bs =>
    rw [collectBases, baseEvents]
    cases isVirtual with
    | true =>
      rw [if_pos rfl, if_pos rfl, collectBases_eq c path viaFlatten (i + 1) bs, fail_flattenStack]
      rfl
    | false =>
      rw [if_neg Bool.false_ne_true, if_neg Bool.false_ne_true,
        collectFields_eq (path ++ [Hop.base i]) viaFlatten true b st]
      refine walk_append fun st' hst' => ?_
      rw [collectBases_eq c path viaFlatten (i + 1) bs st', hst']

theorem collectMembers_eq (c : Class) (path : List Hop) (viaFlatten viaBase : Bool) (i : Nat)
    (ms : Members) (st : BuildState) :
    collectMembers c path viaFlatten viaBase i ms st =
      (membersEvents c path st.flattenStack viaFlatten viaBase i ms).foldlM step st := by
  match ms with
  | .nil => rfl
  | .plain m ms =>
    have hrest : ∀ st', st'.flattenStack = st.flattenStack →
      collectMembers c path viaFlatten viaBase (i + 1) ms st' =
        (membersEvents c path st.flattenStack viaFlatten viaBase (i + 1) ms).foldlM step st' :=
          fun st' hst' => by
      rw [collectMembers_eq c path viaFlatten viaBase (i + 1) ms st', hst']
    rw [collectMembers, membersEvents]
    cases treatment c.info path.length st.flattenStack m none with
    | refuse msg => exact hrest _ (fail_flattenStack msg st)
    | leaveOut => exact hrest st rfl
    | splice => exact hrest st rfl
    | field identifier anns =>
      exact walk_cons (e := .field c path viaFlatten viaBase i m identifier anns) hrest
  | .object m mt ms =>
    have hrest : ∀ st', st'.flattenStack = st.flattenStack →
      collectMembers c path viaFlatten viaBase (i + 1) ms st' =
        (membersEvents c path st.flattenStack viaFlatten viaBase (i + 1) ms).foldlM step st' :=
          fun st' hst' => by
      rw [collectMembers_eq c path viaFlatten viaBase (i + 1) ms st', hst']
    rw [collectMembers, membersEvents]
    cases treatment c.info path.length st.flattenStack m (some mt.info) with
    | refuse msg => exact hrest _ (fail_flattenStack msg st)
    | leaveOut => exact hrest st rfl
    | splice =>
      have hinner : (collectFields (path ++ [Hop.member i]) true viaBase mt
            { st with flattenStack := st.flattenStack ++ [c.info.id] } >>= fun st' =>
          some { st' with flattenStack := st'.flattenStack.dropLast }) =
          (classEvents (path ++ [Hop.member i]) (st.flattenStack ++ [c.info.id]) true viaBase
            mt).foldlM step st := by
        rw [collectFields_eq (path ++ [Hop.member i]) true viaBase mt, walk_onStack]
      have hwalk :
        ((classEvents (path ++ [Hop.member i]) (st.flattenStack ++ [c.info.id]) true viaBase
        mt).foldlM step st >>= _) = _ :=
        walk_append hrest
      rw [← hinner, bind_assoc] at hwalk
      exact hwalk
    | field identifier anns =>
      exact walk_cons (e := .field c path viaFlatten viaBase i m identifier anns) hrest

end

end VCodec.Schema
