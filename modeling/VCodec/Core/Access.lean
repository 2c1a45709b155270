import VCodec.Core.Accepted

/-!
# Access through paths

An object nests its bases and the members that are flattened, while the codec numbers the fields of
its class. `access` follows the path of a field from the root object. No path of a field runs
through another field, so assignments through the paths are assignments to the items of one list,
and leave everything beside the fields as it was.
-/

namespace VCodec.Schema

/-- An object, as far as the paths of fields lead into it. -/
inductive Obj
  | value (v : Val)
  | object (bases members : List Obj)

namespace Obj

def value? : Obj → Option Val
  | value v => some v
  | object _ _ => none

/-- The subobject that a step leads to. -/
def sub (a : Hop) : Obj → Option Obj
  | value _ => none
  | object bs ms =>
    match a with
    | .base i => bs[i]?
    | .member i => ms[i]?

def setSub (a : Hop) : Obj → Obj → Obj
  | value v, _ => value v
  | object bs ms, w =>
    match a with
    | .base i => object (bs.set i w) ms
    | .member i => object bs (ms.set i w)

end Obj

def access : List Hop → Obj → Option Obj
  | [], o => some o
  | a :: p, o => (o.sub a).bind (access p)

/-- Assign to what `access` refers to. -/
def assign (w : Obj) : List Hop → Obj → Obj
  | [], _ => w
  | a :: p, o =>
    match o.sub a with
    | some o' => o.setSub a (assign w p o')
    | none => o

/-! ### One path and another -/

variable {w : Obj}

theorem sub_setSub_self {a : Hop} {o o' : Obj} (h : o.sub a = some o') :
    (o.setSub a w).sub a = some w := by
  cases o with
  | value v => cases h
  | object bs ms =>
    cases a with
    | base i =>
      obtain ⟨hi, -⟩ := List.getElem?_eq_some_iff.1 h
      exact List.getElem?_set_self hi
    | member i =>
      obtain ⟨hi, -⟩ := List.getElem?_eq_some_iff.1 h
      exact List.getElem?_set_self hi

theorem sub_setSub_of_ne {a b : Hop} (hne : a ≠ b) (o : Obj) : (o.setSub a w).sub b = o.sub b := by
  cases o with
  | value v => rfl
  | object bs ms =>
    cases a with
    | base i =>
      cases b with
      | base j => exact List.getElem?_set_ne fun heq => hne (congrArg Hop.base heq)
      | member j => rfl
    | member i =>
      cases b with
      | base j => rfl
      | member j => exact List.getElem?_set_ne fun heq => hne (congrArg Hop.member heq)

theorem access_append (p q : List Hop) (o : Obj) :
    access (p ++ q) o = (access p o).bind (access q) := by
  induction p generalizing o with
  | nil => rfl
  | cons a p ih =>
    show (o.sub a).bind (access (p ++ q)) = ((o.sub a).bind (access p)).bind (access q)
    rw [Option.bind_assoc]
    exact congrArg _ (funext ih)

theorem assign_cons {a : Hop} {o o' : Obj} (h : o.sub a = some o') (p : List Hop) :
    assign w (a :: p) o = o.setSub a (assign w p o') := by
  rw [assign, h]

theorem assign_cons_none {a : Hop} {o : Obj} (h : o.sub a = none) (p : List Hop) :
    assign w (a :: p) o = o := by
  rw [assign, h]

theorem access_assign_self {p : List Hop} {o : Obj} (h : (access p o).isSome = true) :
    access p (assign w p o) = some w := by
  induction p generalizing o with
  | nil => rfl
  | cons a p ih =>
    rw [access] at h
    cases hsub : o.sub a with
    | none =>
      rw [hsub] at h
      cases h
    | some o' =>
      rw [hsub] at h
      rw [assign_cons hsub, access, sub_setSub_self hsub]
      exact ih h

/-- The paths part at some step. -/
def Parts (p q : List Hop) : Prop := ∃ u a b s t, p = u ++ a :: s ∧ q = u ++ b :: t ∧ a ≠ b

theorem Parts.symm {p q : List Hop} (h : Parts p q) : Parts q p := by
  obtain ⟨u, a, b, s, t, hp, hq, hne⟩ := h
  exact ⟨u, b, a, t, s, hq, hp, hne.symm⟩

theorem Precedes.parts {p q : List Hop} (h : Precedes p q) : Parts p q := by
  obtain ⟨u, a, b, s, t, hp, hq, hbefore⟩ := h
  refine ⟨u, a, b, s, t, hp, hq, fun heq => ?_⟩
  subst heq
  cases a with
  | base i => exact Nat.lt_irrefl i hbefore
  | member i => exact Nat.lt_irrefl i hbefore

theorem access_assign_of_parts {p q : List Hop} (h : Parts p q) (o : Obj) :
    access q (assign w p o) = access q o := by
  obtain ⟨u, a, b, s, t, rfl, rfl, hne⟩ := h
  induction u generalizing o with
  | nil =>
    rw [List.nil_append, List.nil_append]
    cases hsub : o.sub a with
    | none => rw [assign_cons_none hsub]
    | some o' => rw [assign_cons hsub, access, sub_setSub_of_ne hne, access]
  | cons c u ih =>
    rw [List.cons_append, List.cons_append]
    cases hsub : o.sub c with
    | none => rw [assign_cons_none hsub]
    | some o' =>
      rw [assign_cons hsub, access, access, sub_setSub_self hsub, hsub]
      exact ih o'

/-! ### Fields -/

def FieldMeta.read (f : FieldMeta) (o : Obj) : Val := ((access f.path o).bind Obj.value?).getD .null

/-- The object as the codec sees it. -/
def flat (fs : List FieldMeta) (o : Obj) : Val := .seq (fs.map (·.read o))

/-- Assign a value to a field, by its position. -/
def assignField (fs : List FieldMeta) (o : Obj) (x : Nat × Val) : Obj :=
  match fs[x.1]? with
  | some f => assign (.value x.2) f.path o
  | none => o

/-- The path of every field leads to a value. -/
def Filled (fs : List FieldMeta) (o : Obj) : Prop :=
  ∀ f ∈ fs, ∃ v, access f.path o = some (.value v)

section

variable {fs : List FieldMeta} {o : Obj}

theorem parts_of_ne (hpaths : (fs.map (·.path)).Pairwise Precedes)
    {i j : Nat} {f g : FieldMeta} (hf : fs[i]? = some f) (hg : fs[j]? = some g) (hne : i ≠ j) :
    Parts f.path g.path := by
  rw [List.pairwise_map, List.pairwise_iff_getElem] at hpaths
  obtain ⟨hi, rfl⟩ := List.getElem?_eq_some_iff.1 hf
  obtain ⟨hj, rfl⟩ := List.getElem?_eq_some_iff.1 hg
  rcases Nat.lt_or_gt_of_ne hne with hlt | hgt
  · exact (hpaths i j hi hj hlt).parts
  · exact (hpaths j i hj hi hgt).parts.symm

theorem read_assign_self {f : FieldMeta} {v u : Val} (h : access f.path o = some (.value v)) :
    f.read (assign (.value u) f.path o) = u := by
  rw [FieldMeta.read, access_assign_self (by rw [h]; rfl)]
  rfl

theorem filled_assignField (hpaths : (fs.map (·.path)).Pairwise Precedes)
    (h : Filled fs o) (x : Nat × Val) : Filled fs (assignField fs o x) := by
  intro g hg
  unfold assignField
  cases hx : fs[x.1]? with
  | none => exact h g hg
  | some f =>
    obtain ⟨j, hj⟩ := List.mem_iff_getElem?.1 hg
    by_cases heq : x.1 = j
    · subst heq
      have hfield : f = g := Option.some.inj (hx.symm.trans hj)
      rw [hfield]
      obtain ⟨v, hv⟩ := h g hg
      exact ⟨x.2, access_assign_self (by rw [hv]; rfl)⟩
    · obtain ⟨v, hv⟩ := h g hg
      exact ⟨v, (access_assign_of_parts (parts_of_ne hpaths hx hj heq) o).trans hv⟩

theorem flat_assignField (hpaths : (fs.map (·.path)).Pairwise Precedes)
    (h : Filled fs o) (x : Nat × Val) :
    flat fs (assignField fs o x) = (flat fs o).setItem x.1 x.2 := by
  show Val.seq _ = Val.seq ((fs.map (·.read o)).set x.1 x.2)
  unfold assignField
  cases hx : fs[x.1]? with
  | none =>
    have hlen : (fs.map (·.read o)).length ≤ x.1 := by
      rw [List.length_map]
      exact List.getElem?_eq_none_iff.1 hx
    rw [List.set_eq_of_length_le hlen]
  | some f =>
    refine congrArg Val.seq (List.ext_getElem? fun j => ?_)
    obtain ⟨hlt, -⟩ := List.getElem?_eq_some_iff.1 hx
    rw [List.getElem?_map]
    by_cases heq : x.1 = j
    · subst heq
      obtain ⟨v, hv⟩ := h f (List.mem_of_getElem? hx)
      rw [hx, List.getElem?_set_self (by rw [List.length_map]; exact hlt), Option.map_some,
        read_assign_self hv]
    · rw [List.getElem?_set_ne heq, List.getElem?_map]
      cases hg : fs[j]? with
      | none => rfl
      | some g =>
        rw [Option.map_some, Option.map_some, FieldMeta.read,
          access_assign_of_parts (parts_of_ne hpaths hx hg heq)]
        rfl

theorem access_assignField {q : List Hop} (hq : ∀ f ∈ fs, Parts f.path q) (o : Obj)
    (x : Nat × Val) :
    access q (assignField fs o x) = access q o := by
  unfold assignField
  cases hx : fs[x.1]? with
  | none => rfl
  | some f => exact access_assign_of_parts (hq f (List.mem_of_getElem? hx)) o

/-- Any number of assignments. -/
theorem flat_assignFields (hpaths : (fs.map (·.path)).Pairwise Precedes) (xs : List (Nat × Val))
    (h : Filled fs o) :
    flat fs (xs.foldl (assignField fs) o) = xs.foldl (fun u x => u.setItem x.1 x.2)
      (flat fs o) := by
  induction xs generalizing o with
  | nil => rfl
  | cons x xs ih =>
    rw [List.foldl_cons, List.foldl_cons, ih (filled_assignField hpaths h x),
      flat_assignField hpaths h x]

theorem access_assignFields {q : List Hop} (hq : ∀ f ∈ fs, Parts f.path q) (xs : List (Nat × Val))
    (o : Obj) :
    access q (xs.foldl (assignField fs) o) = access q o := by
  induction xs generalizing o with
  | nil => rfl
  | cons x xs ih => rw [List.foldl_cons, ih, access_assignField hq]

end

/-! ### The default-constructed object -/

/-- A member that is spliced is an object, any other one a value. -/
def Treatment.subobject (t : Treatment) (spliced : Obj) (v : Val) : Obj :=
  match t with
  | .splice => spliced
  | _ => .value v

mutual

def Class.object (depth : Nat) (stack : List Nat) : Class → Obj
  | .mk info bs ms => .object (bs.objects depth stack) (ms.objects info depth stack)

def Bases.objects (depth : Nat) (stack : List Nat) : Bases → List Obj
  | .nil => []
  | .cons _ b bs => b.object (depth + 1) stack :: bs.objects depth stack

def Members.objects (c : ClassInfo) (depth : Nat) (stack : List Nat) : Members → List Obj
  | .nil => []
  | .plain m ms => .value m.initial :: ms.objects c depth stack
  | .object m mt ms =>
    (treatment c depth stack m (some mt.info)).subobject (mt.object (depth + 1) (stack ++ [c.id]))
      m.initial :: ms.objects c depth stack

end

def Class.initial (c : Class) : Obj := c.object 0 []

def Place.object (p : Place) : Obj := p.cls.object p.path.length p.stack

/-- The subobject that a member is. -/
def memberObject (c : ClassInfo) (depth : Nat) (stack : List Nat) (x : DataMember × Option Class) :
    Obj :=
  match x.2 with
  | none => .value x.1.initial
  | some mt =>
    (treatment c depth stack x.1 (some mt.info)).subobject (mt.object (depth + 1) (stack ++ [c.id]))
      x.1.initial

theorem Bases.objects_getElem? (depth : Nat) (stack : List Nat) (bs : Bases) (i : Nat) :
    (bs.objects depth stack)[i]? = bs.list[i]?.map fun x => x.2.object (depth + 1) stack := by
  induction bs using Bases.list.induct generalizing i with
  | case1 => rfl
  | case2 v b bs ih =>
    rw [Bases.objects, Bases.list]
    cases i with
    | zero => rfl
    | succ i => exact ih i

theorem Members.objects_getElem?
    (c : ClassInfo) (depth : Nat) (stack : List Nat) (ms : Members) (i : Nat) :
    (ms.objects c depth stack)[i]? = ms.list[i]?.map (memberObject c depth stack) := by
  induction ms using Members.list.induct generalizing i with
  | case1 => rfl
  | case2 m ms ih =>
    rw [Members.objects, Members.list]
    cases i with
    | zero => rfl
    | succ i => exact ih i
  | case3 m mt ms ih =>
    rw [Members.objects, Members.list]
    cases i with
    | zero => rfl
    | succ i => exact ih i

theorem Place.object_base (p : Place) (i : Nat) :
    p.object.sub (.base i) = p.cls.bases.list[i]?.map fun x =>
      x.2.object (p.path.length + 1) p.stack := by
  obtain ⟨⟨info, bs, ms⟩, path, stack, vf, vb⟩ := p
  rw [Place.object, Class.object]
  exact Bases.objects_getElem? path.length stack bs i

theorem Place.object_member (p : Place) (i : Nat) :
    p.object.sub (.member i) = p.cls.members.list[i]?.map
      (memberObject p.cls.info p.path.length p.stack) := by
  obtain ⟨⟨info, bs, ms⟩, path, stack, vf, vb⟩ := p
  rw [Place.object, Class.object]
  exact Members.objects_getElem? info path.length stack ms i

theorem Place.Enters.object {p q : Place} (h : p.Enters q) :
    ∃ a, q.path = p.path ++ [a] ∧ p.object.sub a = some q.object := by
  cases h with
  | base h =>
    refine ⟨_, rfl, ?_⟩
    rw [Place.object_base, h, Place.object, List.length_append]
    rfl
  | splice h ht =>
    refine ⟨_, rfl, ?_⟩
    rw [Place.object_member, h, Option.map_some, Place.object, List.length_append]
    have hsplice : treatment p.cls.info p.path.length p.stack _ (some (Class.info _)) = .splice :=
      ht
    rw [memberObject]
    simp only [hsplice]
    rfl

/-- The path of a visited class leads to its subobject. -/
theorem access_object {p q : Place} (h : Visits p q) :
    ∃ s, q.path = p.path ++ s ∧ access s p.object = some q.object := by
  induction h with
  | refl => exact ⟨[], (List.append_nil _).symm, rfl⟩
  | tail _ henters ih =>
    obtain ⟨s, hpath, haccess⟩ := ih
    obtain ⟨a, ha, hsub⟩ := henters.object
    refine ⟨s ++ [a], by rw [ha, hpath, List.append_assoc], ?_⟩
    rw [access_append, haccess, Option.bind_some, access, hsub]
    rfl

/-- In a default-constructed object each field has the initial value of its member. -/
theorem access_initial {c : Class} {n : Nat} {f : FieldMeta} (h : (fieldsOf c)[n]? = some f) :
    access f.path c.initial = some (.value f.initial) := by
  obtain ⟨q, i, m, type, identifier, anns, hvisits, hm, ht, rfl⟩ := exists_of_fieldsOf h
  obtain ⟨s, hpath, haccess⟩ := access_object hvisits
  have hmember : memberObject q.cls.info q.path.length q.stack (m, type) = .value m.initial := by
    cases type with
    | none => rfl
    | some mt =>
      have hfield : treatment q.cls.info q.path.length q.stack m (some mt.info) =
        .field identifier anns := ht
      rw [memberObject]
      simp only [hfield]
      rfl
  show access (q.path ++ [.member i]) (start c).object = _
  rw [hpath]
  show access (s ++ [.member i]) (start c).object = _
  rw [access_append, haccess, Option.bind_some, access, Place.object_member, hm, Option.map_some,
    hmember]
  rfl

theorem filled_initial (c : Class) : Filled (fieldsOf c) c.initial := by
  intro f hf
  obtain ⟨n, hn⟩ := List.mem_iff_getElem?.1 hf
  exact ⟨f.initial, access_initial hn⟩

theorem flat_initial (c : Class) :
    flat (fieldsOf c) c.initial = .seq ((fieldsOf c).map FieldMeta.initial) := by
  refine congrArg Val.seq (List.map_congr_left fun f hf => ?_)
  obtain ⟨n, hn⟩ := List.mem_iff_getElem?.1 hf
  rw [FieldMeta.read, access_initial hn]
  rfl

/-- The object that the decoder fills member by member, through the paths of the fields, is the flat
list of values that it fills by position, and nothing beside the fields changes. -/
theorem assigned_fields {c : Class} {st : BuildState} (h : runBuild c = some st)
    (xs : List (Nat × Val)) :
    flat st.fields (xs.foldl (assignField st.fields) c.initial) =
        xs.foldl (fun u x => u.setItem x.1 x.2) (.seq (st.fields.map FieldMeta.initial)) ∧
      ∀ q, (∀ f ∈ st.fields, Parts f.path q) →
        access q (xs.foldl (assignField st.fields) c.initial) = access q c.initial := by
  rw [(runBuild_spec h).1]
  refine ⟨?_, fun q hq => access_assignFields hq xs c.initial⟩
  rw [flat_assignFields (pairwise_fieldsOf c) xs (filled_initial c), flat_initial]

theorem assigned_fields_disc : ∃ st, runBuild disc = some st ∧
    flat st.fields
      ([(1, Val.int 7), (0, .text (str "d")), (1, .int 8)].foldl
      (assignField st.fields) disc.initial) =
      [(1, Val.int 7), (0, .text (str "d")), (1, .int 8)].foldl (fun u x => u.setItem x.1 x.2)
        (.seq (st.fields.map FieldMeta.initial)) := by
  obtain ⟨st, hst⟩ := Option.isSome_iff_exists.1 disc_built
  exact ⟨st, hst, (assigned_fields hst _).1⟩

end VCodec.Schema
