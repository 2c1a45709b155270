import VCodec.Core.Splice
import Mathlib.Logic.Relation
import Mathlib.Data.List.Nodup

/-!
# The fields of a class

The classes that the walk over a class visits are the class itself, the bases of a visited class
that are not virtual, and the classes of its flattened members. The fields of the class are the
members of the visited classes that are neither left out nor spliced, each once, in the order of
their paths: bases before members, and both in the order of their declaration. The schema is
accepted exactly if nothing that the walk visits is refused and no name leads to two fields.
-/

namespace VCodec.Schema

open Relation (ReflTransGen)

/-! ### Visited classes -/

def Bases.list : Bases → List (Bool × Class)
  | .nil => []
  | .cons isVirtual b bs => (isVirtual, b) :: bs.list

def Members.list : Members → List (DataMember × Option Class)
  | .nil => []
  | .plain m ms => (m, none) :: ms.list
  | .object m mt ms => (m, some mt) :: ms.list

theorem Bases.sizeOf_lt {v : Bool} {b : Class} :
    ∀ {bs : Bases}, (v, b) ∈ bs.list → sizeOf b < sizeOf bs
  | .nil, h => absurd h List.not_mem_nil
  | .cons isVirtual c bs, h => by
    rcases List.mem_cons.1 h with heq | h
    · cases heq
      simp only [Bases.cons.sizeOf_spec]
      omega
    · have hlt := Bases.sizeOf_lt h
      simp only [Bases.cons.sizeOf_spec]
      omega

theorem Members.sizeOf_lt {m : DataMember} {c : Class} :
    ∀ {ms : Members}, (m, some c) ∈ ms.list → sizeOf c < sizeOf ms
  | .nil, h => absurd h List.not_mem_nil
  | .plain _ ms, h => by
    rcases List.mem_cons.1 h with heq | h
    · cases heq
    · have hlt := Members.sizeOf_lt h
      simp only [Members.plain.sizeOf_spec]
      omega
  | .object _ _ ms, h => by
    rcases List.mem_cons.1 h with heq | h
    · cases heq
      simp only [Members.object.sizeOf_spec]
      omega
    · have hlt := Members.sizeOf_lt h
      simp only [Members.object.sizeOf_spec]
      omega

/-- A class as the walk comes to it. -/
structure Place where
  cls : Class
  path : List Hop
  stack : List Nat
  viaFlatten : Bool
  viaBase : Bool

def start (c : Class) : Place := ⟨c, [], [], false, false⟩

namespace Place

variable (p : Place)

def events : List Event := classEvents p.path p.stack p.viaFlatten p.viaBase p.cls

def treats (m : DataMember) (type : Option Class) : Treatment :=
  treatment p.cls.info p.path.length p.stack m (type.map Class.info)

/-- The walk goes from a class to a base, or to the class of a flattened member. -/
inductive Enters : Place → Prop
  | base {i : Nat} {b : Class} (h : p.cls.bases.list[i]? = some (false, b)) :
      Enters ⟨b, p.path ++ [.base i], p.stack, p.viaFlatten, true⟩
  | splice {i : Nat} {m : DataMember} {mt : Class} (h : p.cls.members.list[i]? = some (m, some mt))
      (ht : p.treats m (some mt) = .splice) :
    Enters ⟨mt, p.path ++ [.member i], p.stack ++ [p.cls.info.id], true, p.viaBase⟩

/-- What the walk meets at a class itself. -/
inductive Meets : Event → Prop
  | described {d : Bytes × List Ann} (h : d ∈ p.cls.info.describedMembers)
      (hno : ∀ m ∈ p.cls.members.toList, m.identifier ≠ some d.1) :
    Meets (.complaint (describedError p.cls.info d.1))
  | isVirtual {i : Nat} {b : Class} (h : p.cls.bases.list[i]? = some (true, b)) :
      Meets (.complaint (virtualBaseError p.cls.info b.info))
  | refused {i : Nat} {m : DataMember} {type : Option Class} {msg : Bytes}
      (h : p.cls.members.list[i]? = some (m, type)) (ht : p.treats m type = .refuse msg) :
      Meets (.complaint msg)
  | field {i : Nat} {m : DataMember} {type : Option Class} {identifier : Bytes} {anns : List Ann}
    (h : p.cls.members.list[i]? = some (m, type)) (ht : p.treats m type = .field identifier anns) :
    Meets (.field p.cls p.path p.viaFlatten p.viaBase i m identifier anns)

end Place

abbrev Visits : Place → Place → Prop := ReflTransGen Place.Enters

theorem Place.Enters.sizeOf_lt {p q : Place} (h : p.Enters q) : sizeOf q.cls < sizeOf p.cls := by
  obtain ⟨⟨info, bs, ms⟩, path, stack, vf, vb⟩ := p
  cases h with
  | base h =>
    have hlt := Bases.sizeOf_lt (List.mem_of_getElem? h)
    simp only [Class.bases, Class.mk.sizeOf_spec] at hlt ⊢
    omega
  | splice h ht =>
    have hlt := Members.sizeOf_lt (List.mem_of_getElem? h)
    simp only [Class.members, Class.mk.sizeOf_spec] at hlt ⊢
    omega

/-! ### What is met is met at a visited class -/

theorem exists_getElem?_cons {α : Type} (P : Nat → α → Prop) (x : α) (xs : List α) :
    (∃ (j : Nat) (y : α), (x :: xs)[j]? = some y ∧ P j y) ↔
      P 0 x ∨ ∃ (j : Nat) (y : α), xs[j]? = some y ∧ P (j + 1) y := by
  constructor
  · rintro ⟨j, y, hy, hP⟩
    cases j with
    | zero =>
      cases hy
      exact .inl hP
    | succ j => exact .inr ⟨j, y, hy, hP⟩
  · rintro (hP | ⟨j, y, hy, hP⟩)
    · exact ⟨0, x, rfl, hP⟩
    · exact ⟨j + 1, y, hy, hP⟩

theorem mem_describedEvents {c : ClassInfo} {ms : List DataMember} {e : Event} :
    e ∈ describedEvents c ms ↔
      ∃ d ∈ c.describedMembers, (∀ m ∈ ms, m.identifier ≠ some d.1) ∧
        e = .complaint (describedError c d.1) := by
  unfold describedEvents
  simp only [List.mem_map, List.mem_filter, List.any_eq_true, decide_eq_true_eq, not_exists,
    not_and, ne_eq]
  constructor
  · rintro ⟨d, ⟨hd, hno⟩, rfl⟩
    exact ⟨d, hd, hno, rfl⟩
  · rintro ⟨d, hd, hno, rfl⟩
    exact ⟨d, ⟨hd, hno⟩, rfl⟩

section

variable (path : List Hop) (stack : List Nat) (viaFlatten viaBase : Bool) (e : Event)

/-- What a base adds to the walk. -/
def basePart (c : ClassInfo) (i : Nat) (x : Bool × Class) : List Event :=
  if x.1 then [.complaint (virtualBaseError c x.2.info)] else classEvents (path ++ [.base i]) stack
    viaFlatten true x.2

theorem mem_baseEvents (c : ClassInfo) :
    ∀ (i : Nat) (bs : Bases), e ∈ baseEvents c path stack viaFlatten i bs ↔
    ∃ (j : Nat) (x : Bool × Class), bs.list[j]? = some x ∧
      e ∈ basePart path stack viaFlatten c (i + j) x
  | i, .nil => iff_of_false List.not_mem_nil (by rintro ⟨_, _, h, _⟩; cases h)
  | i, .cons isVirtual b bs => by
    have hrest := mem_baseEvents c (i + 1) bs
    simp only [Nat.add_right_comm i 1] at hrest
    exact List.mem_append.trans ((or_congr Iff.rfl hrest).trans
      (exists_getElem?_cons (fun j x => e ∈ basePart path stack viaFlatten c (i + j) x)
        (isVirtual, b) bs.list).symm)

/-- What a member adds to the walk. -/
def memberPart (c : Class) (i : Nat) (x : DataMember × Option Class) : List Event :=
  match x.2 with
  | none =>
    memberEvents c path viaFlatten viaBase i x.1 (treatment c.info path.length stack x.1 none)
  | some mt =>
    (treatment c.info path.length stack x.1 (some mt.info)).select
      (classEvents (path ++ [.member i]) (stack ++ [c.info.id]) true viaBase mt)
      (memberEvents c path viaFlatten viaBase i x.1
        (treatment c.info path.length stack x.1 (some mt.info)))

theorem mem_membersEvents (c : Class) :
    ∀ (i : Nat) (ms : Members), e ∈ membersEvents c path stack viaFlatten viaBase i ms ↔
    ∃ (j : Nat) (x : DataMember × Option Class), ms.list[j]? = some x ∧
      e ∈ memberPart path stack viaFlatten viaBase c (i + j) x
  | i, .nil => iff_of_false List.not_mem_nil (by rintro ⟨_, _, h, _⟩; cases h)
  | i, .plain m ms => by
    have hrest := mem_membersEvents c (i + 1) ms
    simp only [Nat.add_right_comm i 1] at hrest
    exact List.mem_append.trans ((or_congr Iff.rfl hrest).trans
      (exists_getElem?_cons (fun j x => e ∈ memberPart path stack viaFlatten viaBase c (i + j) x)
        (m, none) ms.list).symm)
  | i, .object m mt ms => by
    have hrest := mem_membersEvents c (i + 1) ms
    simp only [Nat.add_right_comm i 1] at hrest
    exact List.mem_append.trans ((or_congr Iff.rfl hrest).trans
      (exists_getElem?_cons (fun j x => e ∈ memberPart path stack viaFlatten viaBase c (i + j) x)
        (m, some mt) ms.list).symm)

theorem mem_memberEvents (c : Class) (i : Nat) (m : DataMember) (t : Treatment) :
    e ∈ memberEvents c path viaFlatten viaBase i m t ↔
      (∃ msg, t = .refuse msg ∧ e = .complaint msg) ∨
      ∃ identifier anns, t = .field identifier anns ∧
        e = .field c path viaFlatten viaBase i m identifier anns := by
  cases t with
  | refuse msg => simp [memberEvents]
  | leaveOut => simp [memberEvents]
  | splice => simp [memberEvents]
  | field identifier anns => simp [memberEvents]

end

theorem mem_memberPart (p : Place) (e : Event) (i : Nat) (m : DataMember) (type : Option Class) :
    e ∈ memberPart p.path p.stack p.viaFlatten p.viaBase p.cls i (m, type) ↔
      (∃ msg, p.treats m type = .refuse msg ∧ e = .complaint msg) ∨
      (∃ identifier anns, p.treats m type = .field identifier anns ∧
        e = .field p.cls p.path p.viaFlatten p.viaBase i m identifier anns) ∨
      ∃ mt, type = some mt ∧ p.treats m type = .splice ∧
        e ∈ classEvents (p.path ++ [.member i]) (p.stack ++ [p.cls.info.id]) true p.viaBase mt := by
  cases type with
  | none =>
    refine (mem_memberEvents p.path p.viaFlatten p.viaBase e p.cls i m (p.treats m none)).trans
      (or_congr Iff.rfl ?_)
    exact (or_iff_left (by rintro ⟨mt, h, -⟩; cases h)).symm
  | some mt =>
    show e ∈ (p.treats m (some mt)).select _ (memberEvents _ _ _ _ _ _ (p.treats m (some mt))) ↔ _
    cases ht : p.treats m (some mt) with
    | splice => simp [Treatment.select]
    | refuse msg => simp [Treatment.select, memberEvents]
    | leaveOut => simp [Treatment.select, memberEvents]
    | field identifier anns => simp [Treatment.select, memberEvents]

/-- One step of the walk. -/
theorem mem_events_iff {p : Place} {e : Event} :
    e ∈ p.events ↔ p.Meets e ∨ ∃ q, p.Enters q ∧ e ∈ q.events := by
  have hclass : p.events = describedEvents p.cls.info p.cls.members.toList ++
      (baseEvents p.cls.info p.path p.stack p.viaFlatten 0 p.cls.bases ++
        membersEvents p.cls p.path p.stack p.viaFlatten p.viaBase 0 p.cls.members) := by
    obtain ⟨⟨info, bs, ms⟩, path, stack, vf, vb⟩ := p
    rw [Place.events, classEvents]
    rfl
  rw [hclass, List.mem_append, List.mem_append, mem_describedEvents, mem_baseEvents,
    mem_membersEvents]
  simp only [Nat.zero_add]
  constructor
  · rintro (⟨d, hd, hno, rfl⟩ | ⟨i, ⟨v, b⟩, hb, hpart⟩ | ⟨i, ⟨m, type⟩, hm, hpart⟩)
    · exact .inl (.described hd hno)
    · cases v with
      | true =>
        obtain rfl := List.mem_singleton.1 hpart
        exact .inl (.isVirtual hb)
      | false => exact .inr ⟨_, .base hb, hpart⟩
    · rcases (mem_memberPart p e i m type).1
        hpart with ⟨msg, ht, rfl⟩ | ⟨identifier, anns, ht, rfl⟩ | ⟨mt, rfl, ht, hin⟩
      · exact .inl (.refused hm ht)
      · exact .inl (.field hm ht)
      · exact .inr ⟨_, .splice hm ht, hin⟩
  · rintro (hmeets | ⟨q, henters, hin⟩)
    · cases hmeets with
      | described hd hno => exact .inl ⟨_, hd, hno, rfl⟩
      | isVirtual hb => exact .inr (.inl ⟨_, _, hb, List.mem_singleton.2 rfl⟩)
      | refused hm ht =>
        exact .inr (.inr ⟨_, _, hm, (mem_memberPart p _ _ _ _).2 (.inl ⟨_, ht, rfl⟩)⟩)
      | field hm ht =>
        exact .inr (.inr ⟨_, _, hm, (mem_memberPart p _ _ _ _).2 (.inr (.inl ⟨_, _, ht, rfl⟩))⟩)
    · cases henters with
      | base hb => exact .inr (.inl ⟨_, _, hb, hin⟩)
      | splice hm ht =>
        exact .inr (.inr ⟨_, _, hm, (mem_memberPart p _ _ _ _).2 (.inr (.inr ⟨_, rfl, ht, hin⟩))⟩)

/-- What the walk meets is met at a visited class. -/
theorem mem_events {p : Place} {e : Event} : e ∈ p.events ↔ ∃ q, Visits p q ∧ q.Meets e := by
  constructor
  · intro h
    induction hn : sizeOf p.cls using Nat.strong_induction_on generalizing p with
    | _ n ih =>
      subst hn
      rcases mem_events_iff.1 h with hmeets | ⟨q, henters, hin⟩
      · exact ⟨p, .refl, hmeets⟩
      · obtain ⟨r, hvisits, hmeets⟩ := ih _ henters.sizeOf_lt hin rfl
        exact ⟨r, .head henters hvisits, hmeets⟩
  · rintro ⟨q, hvisits, hmeets⟩
    induction hvisits using ReflTransGen.head_induction_on with
    | refl => exact mem_events_iff.2 (.inl hmeets)
    | head henters _ ih => exact mem_events_iff.2 (.inr ⟨_, henters, ih⟩)

/-! ### The order of the fields -/

/-- Bases stand before members, and both in the order of their declaration. -/
def Hop.Before : Hop → Hop → Prop
  | .base i, .base j => i < j
  | .base _, .member _ => True
  | .member i, .member j => i < j
  | .member _, .base _ => False

/-- The paths part, the first one to the earlier subobject. -/
def Precedes (p q : List Hop) : Prop :=
  ∃ u a b s t, p = u ++ a :: s ∧ q = u ++ b :: t ∧ Hop.Before a b

def Event.path? : Event → Option (List Hop)
  | .complaint _ => none
  | .field _ path _ _ i _ _ _ => some (path ++ [.member i])

def Event.Ordered (e f : Event) : Prop := ∀ p ∈ e.path?, ∀ q ∈ f.path?, Precedes p q

theorem Place.Enters.path {p q : Place} (h : p.Enters q) : ∃ a, q.path = p.path ++ [a] := by
  cases h with
  | base h => exact ⟨_, rfl⟩
  | splice h ht => exact ⟨_, rfl⟩

theorem visits_path {p q : Place} (h : Visits p q) : ∃ s, q.path = p.path ++ s := by
  induction h with
  | refl => exact ⟨[], (List.append_nil _).symm⟩
  | tail _ henters ih =>
    obtain ⟨s, hs⟩ := ih
    obtain ⟨a, ha⟩ := henters.path
    exact ⟨s ++ [a], by rw [ha, hs, List.append_assoc]⟩

theorem Place.Meets.path {p : Place} {e : Event} (h : p.Meets e) {q : List Hop} (hq : q ∈ e.path?) :
    ∃ i, q = p.path ++ [.member i] := by
  cases h with
  | field h ht => exact ⟨_, (Option.mem_some_iff.1 hq).symm⟩
  | _ => cases hq

/-- A field that is met behind a path has that path in front. -/
theorem path_of_mem_events {p : Place} {e : Event} (h : e ∈ p.events) {q : List Hop}
    (hq : q ∈ e.path?) :
    ∃ s, q = p.path ++ s := by
  obtain ⟨r, hvisits, hmeets⟩ := mem_events.1 h
  obtain ⟨s, hs⟩ := visits_path hvisits
  obtain ⟨i, rfl⟩ := hmeets.path hq
  exact ⟨s ++ [.member i], by rw [hs, List.append_assoc]⟩

/-- The hop by which the walk came to a base's events. -/
theorem path_of_mem_baseEvents
    {c : ClassInfo} {path : List Hop} {stack : List Nat} {viaFlatten : Bool} {i : Nat} {bs : Bases}
    {e : Event} (h : e ∈ baseEvents c path stack viaFlatten i bs) {q : List Hop}
    (hq : q ∈ e.path?) :
    ∃ j s, q = path ++ .base (i + j) :: s := by
  obtain ⟨j, ⟨v, b⟩, -, hpart⟩ := (mem_baseEvents path stack viaFlatten e c i bs).1 h
  cases v with
  | true =>
    obtain rfl := List.mem_singleton.1 hpart
    cases hq
  | false =>
    obtain ⟨s, rfl⟩ :=
      path_of_mem_events (p := ⟨b, path ++ [.base (i + j)], stack, viaFlatten, true⟩) hpart hq
    exact ⟨j, s, List.append_assoc _ _ _⟩

theorem path_of_mem_memberPart
    {c : Class} {path : List Hop} {stack : List Nat} {viaFlatten viaBase : Bool} {i : Nat}
    {x : DataMember × Option Class} {e : Event}
    (h : e ∈ memberPart path stack viaFlatten viaBase c i x) {q : List Hop} (hq : q ∈ e.path?) :
    ∃ s, q = path ++ .member i :: s := by
  obtain ⟨m, type⟩ := x
  rcases (mem_memberPart ⟨c, path, stack, viaFlatten, viaBase⟩ e i m type).1 h with
    ⟨msg, -, rfl⟩ | ⟨identifier, anns, -, rfl⟩ | ⟨mt, -, -, hin⟩
  · cases hq
  · exact ⟨[], (Option.mem_some_iff.1 hq).symm⟩
  · obtain ⟨s, rfl⟩ :=
      path_of_mem_events (p := ⟨mt, path ++ [.member i], stack ++ [c.info.id], true, viaBase⟩) hin
      hq
    exact ⟨s, List.append_assoc _ _ _⟩

theorem path_of_mem_membersEvents
    {c : Class} {path : List Hop} {stack : List Nat} {viaFlatten viaBase : Bool} {i : Nat}
    {ms : Members} {e : Event} (h : e ∈ membersEvents c path stack viaFlatten viaBase i ms)
    {q : List Hop} (hq : q ∈ e.path?) :
    ∃ j s, q = path ++ .member (i + j) :: s := by
  obtain ⟨j, x, -, hpart⟩ := (mem_membersEvents path stack viaFlatten viaBase e c i ms).1 h
  obtain ⟨s, hs⟩ := path_of_mem_memberPart hpart hq
  exact ⟨j, s, hs⟩

theorem pairwise_memberEvents
    (c : Class) (path : List Hop) (viaFlatten viaBase : Bool) (i : Nat) (m : DataMember)
    (t : Treatment) :
    (memberEvents c path viaFlatten viaBase i m t).Pairwise Event.Ordered := by
  cases t with
  | leaveOut => exact List.Pairwise.nil
  | splice => exact List.Pairwise.nil
  | refuse msg => exact List.pairwise_singleton _ _
  | field identifier anns => exact List.pairwise_singleton _ _

theorem ordered_members {path : List Hop} {i : Nat} {e f : Event}
    (he : ∀ p ∈ e.path?, ∃ s, p = path ++ .member i :: s)
    (hf : ∀ q ∈ f.path?, ∃ j s, q = path ++ .member (i + 1 + j) :: s) : e.Ordered f := by
  intro p hp q hq
  obtain ⟨s, rfl⟩ := he p hp
  obtain ⟨j, t, rfl⟩ := hf q hq
  exact ⟨path, _, _, s, t, rfl, rfl, (by omega : i < i + 1 + j)⟩

mutual

theorem pairwise_classEvents
    (path : List Hop) (stack : List Nat) (viaFlatten viaBase : Bool) (c : Class) :
    (classEvents path stack viaFlatten viaBase c).Pairwise Event.Ordered := by
  match c with
  | .mk info bs ms =>
    have hdescribed : ∀ e ∈ describedEvents info ms.toList, e.path? = none := by
      intro e he
      obtain ⟨d, -, -, rfl⟩ := mem_describedEvents.1 he
      rfl
    rw [classEvents, List.pairwise_append, List.pairwise_append]
    refine ⟨?_, ⟨pairwise_baseEvents info path stack viaFlatten 0 bs,
      pairwise_membersEvents (.mk info bs ms) path stack viaFlatten viaBase 0 ms, ?_⟩, ?_⟩
    · refine List.Pairwise.imp_of_mem (fun he _ _ p hp => ?_)
        (List.pairwise_of_forall (R := fun _ _ => True) fun _ _ => trivial)
      rw [hdescribed _ he] at hp
      cases hp
    · intro e he f hf p hp q hq
      obtain ⟨i, s, rfl⟩ := path_of_mem_baseEvents he hp
      obtain ⟨j, t, rfl⟩ := path_of_mem_membersEvents hf hq
      exact ⟨path, _, _, s, t, rfl, rfl, trivial⟩
    · intro e he f _ p hp
      rw [hdescribed e he] at hp
      cases hp

theorem pairwise_baseEvents (c : ClassInfo) (path : List Hop) (stack : List Nat) (viaFlatten : Bool)
    (i : Nat) (bs : Bases) :
    (baseEvents c path stack viaFlatten i bs).Pairwise Event.Ordered := by
  match bs with
  | .nil => exact List.Pairwise.nil
  | .cons isVirtual b bs =>
    rw [baseEvents, List.pairwise_append]
    refine ⟨?_, pairwise_baseEvents c path stack viaFlatten (i + 1) bs, ?_⟩
    · cases isVirtual with
      | true => exact List.pairwise_singleton _ _
      | false => exact pairwise_classEvents (path ++ [.base i]) stack viaFlatten true b
    · intro e he f hf p hp q hq
      obtain ⟨j, t, rfl⟩ := path_of_mem_baseEvents hf hq
      cases isVirtual with
      | true =>
        obtain rfl := List.mem_singleton.1 he
        cases hp
      | false =>
        obtain ⟨s, rfl⟩ :=
          path_of_mem_events (p := ⟨b, path ++ [.base i], stack, viaFlatten, true⟩) he hp
        exact ⟨path, .base i, _, s, t, List.append_assoc _ _ _, rfl, (by omega : i < i + 1 + j)⟩

theorem pairwise_membersEvents
    (c : Class) (path : List Hop) (stack : List Nat) (viaFlatten viaBase : Bool) (i : Nat)
    (ms : Members) :
    (membersEvents c path stack viaFlatten viaBase i ms).Pairwise Event.Ordered := by
  match ms with
  | .nil => exact List.Pairwise.nil
  | .plain m ms =>
    rw [membersEvents, List.pairwise_append]
    exact ⟨pairwise_memberEvents _ _ _ _ _ _ _,
      pairwise_membersEvents c path stack viaFlatten viaBase (i + 1) ms,
      fun e he f hf => ordered_members (fun p hp => path_of_mem_memberPart (x := (m, none)) he hp)
        fun q hq => path_of_mem_membersEvents hf hq⟩
  | .object m mt ms =>
    rw [membersEvents, List.pairwise_append]
    refine ⟨?_, pairwise_membersEvents c path stack viaFlatten viaBase (i + 1) ms,
      fun e he f hf => ordered_members
        (fun p hp => path_of_mem_memberPart (x := (m, some mt)) he hp)
        fun q hq => path_of_mem_membersEvents hf hq⟩
    cases treatment c.info path.length stack m (some mt.info) with
    | splice =>
      exact pairwise_classEvents (path ++ [.member i]) (stack ++ [c.info.id]) true viaBase mt
    | refuse msg => exact pairwise_memberEvents c path viaFlatten viaBase i m (.refuse msg)
    | leaveOut => exact pairwise_memberEvents c path viaFlatten viaBase i m .leaveOut
    | field identifier anns =>
      exact pairwise_memberEvents c path viaFlatten viaBase i m (.field identifier anns)

end

end VCodec.Schema
