import VCodec.Cbor.Encode
import VCodec.Core.Document
import VCodec.Json.Api

/-!
# The calls of a sink

What traversal asks of a sink, as a sequence of calls, and the grammar of one value: what is begun
is ended, a map holds keys that are followed by one value each, a tag stands before what it tags,
and a count is the number of the elements or of the entries that follow. A run that does not throw
has made the calls of one value, whatever the sink does with them.
-/

namespace VCodec

inductive SinkCall
  | null
  | boolean (b : Bool)
  | uint (f : FieldMeta) (n : Nat)
  | sint (f : FieldMeta) (i : Int)
  | real (f : FieldMeta) (x : Double)
  | text (f : FieldMeta) (t : Bytes)
  | bytes (f : FieldMeta) (b : Bytes)
  | writeRange (t : Ty) (v : Val)
  | beginArray (f : FieldMeta) (n : Option Nat)
  | endArray
  | beginMap (f : FieldMeta) (n : Option Nat)
  | beginMapOrdered (n : Option Nat)
  | endMap
  | key (k : Bytes)
  | keyUint (n : Nat)
  | keySint (i : Int)
  | preparedKey (k : Bytes)
  | preparedIntKey (i : Int)
  | tag (n : Nat)

namespace SinkCall

/-- A value by itself. -/
def isLeaf : SinkCall → Bool
  | .null | .boolean _ | .uint _ _ | .sint _ _ | .real _ _ | .text _ _ | .bytes _ _ | .writeRange _ _ => true
  | _ => false

def isKey : SinkCall → Bool
  | .key _ | .keyUint _ | .keySint _ | .preparedKey _ | .preparedIntKey _ => true
  | _ => false

/-- The call that begins a map, and the count it is given. -/
inductive BeginsMap : SinkCall → Option Nat → Prop
  | plain (f : FieldMeta) (n : Option Nat) : BeginsMap (.beginMap f n) n
  | ordered (n : Option Nat) : BeginsMap (.beginMapOrdered n) n

section

variable {ω : Type} (s : Sink ω)

/-- The call, made to a sink. -/
def play : SinkCall → EStateM EncodeError ω Unit
  | .null => s.null
  | .boolean b => s.boolean b
  | .uint f n => s.uint f n
  | .sint f i => s.sint f i
  | .real f x => s.real f x
  | .text f t => s.text f t
  | .bytes f b => s.bytes f b
  | .writeRange t v => s.writeRange t v
  | .beginArray f n => s.beginArray f n
  | .endArray => s.endArray
  | .beginMap f n => s.beginMap f n
  | .beginMapOrdered n => s.beginMapOrdered n
  | .endMap => s.endMap
  | .key k => s.key k
  | .keyUint n => s.keyUint n
  | .keySint i => s.keySint i
  | .preparedKey k => s.preparedKey k
  | .preparedIntKey i => s.preparedIntKey i
  | .tag n => s.tag n

def playAll (cs : List SinkCall) : EStateM EncodeError ω Unit := cs.forM (play s)

theorem playAll_cons (c : SinkCall) (cs : List SinkCall) :
    playAll s (c :: cs) = (do c.play s; playAll s cs) := by
  unfold playAll
  rw [List.forM_eq_forM, List.forM_cons]

theorem playAll_append (cs cs' : List SinkCall) :
    playAll s (cs ++ cs') = (do playAll s cs; playAll s cs') := by
  unfold playAll
  rw [List.forM_eq_forM, List.forM_append]

theorem playAll_singleton (c : SinkCall) : playAll s [c] = c.play s := by
  rw [playAll_cons]
  exact bind_pure_unit

end

end SinkCall

/-! ### The grammar -/

mutual

/-- One value. -/
inductive IsValue : List SinkCall → Prop
  | leaf {c : SinkCall} (h : c.isLeaf = true) : IsValue [c]
  | tag (n : Nat) {cs : List SinkCall} (h : IsValue cs) : IsValue (.tag n :: cs)
  | array (f : FieldMeta) {count : Option Nat} {k : Nat} {cs : List SinkCall} (h : IsElements k cs)
    (hcount : ∀ n, count = some n → n = k) : IsValue (.beginArray f count :: (cs ++ [.endArray]))
  | map {c : SinkCall} {count : Option Nat} {k : Nat} {cs : List SinkCall} (hc : c.BeginsMap count)
    (h : IsEntries k cs) (hcount : ∀ n, count = some n → n = k) : IsValue (c :: (cs ++ [.endMap]))

/-- So many values. -/
inductive IsElements : Nat → List SinkCall → Prop
  | nil : IsElements 0 []
  | cons {k : Nat} {cs cs' : List SinkCall} (h : IsValue cs) (hs : IsElements k cs') :
      IsElements (k + 1) (cs ++ cs')

/-- So many keys, with one value each. -/
inductive IsEntries : Nat → List SinkCall → Prop
  | nil : IsEntries 0 []
  | cons {k : Nat} {c : SinkCall} {cs cs' : List SinkCall} (hc : c.isKey = true) (h : IsValue cs)
      (hs : IsEntries k cs') :
    IsEntries (k + 1) (c :: (cs ++ cs'))

end

/-! ### A sink that notes its calls -/

def note (c : SinkCall) : EStateM EncodeError (List SinkCall) Unit := modify (· ++ [c])

def recorder (tr : Traits) (order : StructDef → List Nat) : Sink (List SinkCall) where
  traits := tr
  memberOrder := order
  null := note .null
  boolean b := note (.boolean b)
  uint f n := note (.uint f n)
  sint f i := note (.sint f i)
  real f x := note (.real f x)
  text f t := note (.text f t)
  bytes f b := note (.bytes f b)
  writeRange t v := note (.writeRange t v)
  beginArray f n := note (.beginArray f n)
  endArray := note .endArray
  beginMap f n := note (.beginMap f n)
  beginMapOrdered n := note (.beginMapOrdered n)
  endMap := note .endMap
  key k := note (.key k)
  keyUint n := note (.keyUint n)
  keySint i := note (.keySint i)
  preparedKey k := note (.preparedKey k)
  preparedIntKey i := note (.preparedIntKey i)
  tag n := note (.tag n)

variable {tr : Traits} {order : StructDef → List Nat}

theorem play_recorder (c : SinkCall) : c.play (recorder tr order) = note c := by
  cases c <;> rfl

theorem playAll_recorder (cs w : List SinkCall) :
    SinkCall.playAll (recorder tr order) cs w = .ok () (w ++ cs) := by
  induction cs generalizing w with
  | nil =>
    rw [List.append_nil]
    exact rfl
  | cons c cs ih =>
    rw [SinkCall.playAll_cons, play_recorder]
    exact (ih (w ++ [c])).trans (by rw [List.append_assoc, List.singleton_append])

/-! ### The calls of a document -/

def DocKey.call : DocKey → SinkCall
  | .text k => .key k
  | .uint n => .keyUint n
  | .sint i => .keySint i
  | .name k => .preparedKey k
  | .intName i => .preparedIntKey i

theorem DocKey.isKey_call (k : DocKey) : k.call.isKey = true := by
  cases k <;> rfl

mutual

def Doc.calls : Doc → List SinkCall
  | .null => [.null]
  | .boolean b => [.boolean b]
  | .uint f n => [.uint f n]
  | .sint f i => [.sint f i]
  | .real f x => [.real f x]
  | .text f t => [.text f t]
  | .bytes f b => [.bytes f b]
  | .range t v => [.writeRange t v]
  | .tag n d => .tag n :: d.calls
  | .array f n ds => .beginArray f n :: (Doc.callsAll ds ++ [.endArray])
  | .map f n es => .beginMap f n :: (Doc.callsEntries es ++ [.endMap])
  | .members n es => .beginMapOrdered (some n) :: (Doc.callsEntries es ++ [.endMap])

def Doc.callsAll : List Doc → List SinkCall
  | [] => []
  | d :: ds => d.calls ++ Doc.callsAll ds

def Doc.callsEntries : List (DocKey × Doc) → List SinkCall
  | [] => []
  | (k, d) :: es => k.call :: (d.calls ++ Doc.callsEntries es)

end

section

open SinkCall

variable {ω : Type} (s : Sink ω)

theorem emit_key (k : DocKey) : k.emit s = k.call.play s := by
  cases k <;> rfl

mutual

/-- A document is written by its calls. -/
theorem emit_eq (d : Doc) : d.emit s = playAll s d.calls := by
  cases d with
  | tag n d =>
    rw [Doc.emit, Doc.calls, playAll_cons, emit_eq d]
    exact rfl
  | array f n ds =>
    rw [Doc.emit, Doc.calls, playAll_cons, playAll_append, playAll_singleton, emitAll_eq ds]
    exact rfl
  | map f n es =>
    rw [Doc.emit, Doc.calls, playAll_cons, playAll_append, playAll_singleton, emitEntries_eq es]
    exact rfl
  | members n es =>
    rw [Doc.emit, Doc.calls, playAll_cons, playAll_append, playAll_singleton, emitEntries_eq es]
    exact rfl
  | null => exact (playAll_singleton s .null).symm
  | boolean b => exact (playAll_singleton s (.boolean b)).symm
  | uint f n => exact (playAll_singleton s (.uint f n)).symm
  | sint f i => exact (playAll_singleton s (.sint f i)).symm
  | real f x => exact (playAll_singleton s (.real f x)).symm
  | text f t => exact (playAll_singleton s (.text f t)).symm
  | bytes f b => exact (playAll_singleton s (.bytes f b)).symm
  | range t v => exact (playAll_singleton s (.writeRange t v)).symm

theorem emitAll_eq (ds : List Doc) : Doc.emitAll s ds = playAll s (Doc.callsAll ds) := by
  match ds with
  | [] => exact rfl
  | d :: ds => rw [Doc.emitAll, Doc.callsAll, playAll_append, emit_eq d, emitAll_eq ds]

theorem emitEntries_eq (es : List (DocKey × Doc)) :
    Doc.emitEntries s es = playAll s (Doc.callsEntries es) := by
  match es with
  | [] => exact rfl
  | (k, d) :: es =>
    rw [Doc.emitEntries, Doc.callsEntries, playAll_cons, playAll_append, emit_key, emit_eq d,
      emitEntries_eq es]

end

end

/-! ### The calls of a value -/

theorem isElements_calls {ds : List Doc} (h : ∀ d ∈ ds, IsValue d.calls) :
    IsElements ds.length (Doc.callsAll ds) := by
  induction ds with
  | nil => exact .nil
  | cons d ds ih =>
    rw [List.forall_mem_cons] at h
    exact .cons h.1 (ih h.2)

theorem isEntries_calls {es : List (DocKey × Doc)} (h : ∀ e ∈ es, IsValue e.2.calls) :
    IsEntries es.length (Doc.callsEntries es) := by
  induction es with
  | nil => exact .nil
  | cons e es ih =>
    rw [List.forall_mem_cons] at h
    exact .cons e.1.isKey_call h.1 (ih h.2)

theorem isValue_array (f : FieldMeta) {n : Option Nat} {ds : List Doc}
    (h : ∀ d ∈ ds, IsValue d.calls) (hn : ∀ m, n = some m → m = ds.length) :
    IsValue (Doc.array f n ds).calls :=
  .array f (isElements_calls h) hn

theorem isValue_map (f : FieldMeta) {n : Option Nat} {es : List (DocKey × Doc)}
    (h : ∀ e ∈ es, IsValue e.2.calls) (hn : ∀ m, n = some m → m = es.length) :
    IsValue (Doc.map f n es).calls :=
  .map (.plain f n) (isEntries_calls h) hn

theorem isValue_tags {ts : List Nat} {d : Doc} (h : IsValue d.calls) :
    IsValue (ts.foldr Doc.tag d).calls := by
  induction ts with
  | nil => exact h
  | cons n ts ih => exact .tag n ih

/-- What is made of each part is made of all of them. -/
theorem mapM_id_forall {α : Type} {P : α → Prop} {xs : List (Option α)}
    {as : List α} (h : xs.mapM id = some as) (hx : ∀ a, some a ∈ xs → P a) : ∀ a ∈ as, P a := by
  intro a ha
  apply hx
  rw [mapM_id_eq_some.1 h]
  exact List.mem_map_of_mem ha

theorem sizeOf?_eq {env : Env} {t : Ty} {n m : Nat} (h : sizeOf? env t n = some m) : m = n := by
  unfold sizeOf? at h
  split at h
  · exact (Option.some.inj h).symm
  · cases h

section

variable {env : Env}

theorem isValue_lowerFieldValue {f : FieldMeta} {plain : Option Doc} {t : Ty} {v : Val} {d : Doc}
    (hplain : ∀ d, plain = some d → IsValue d.calls)
    (h : lowerFieldValue env tr f plain t v = some d) :
    IsValue d.calls := by
  fun_induction lowerFieldValue env tr f plain t v with
  | case1 t v ih => exact ih h
  | case2 t v hv =>
    cases h
    exact .leaf rfl
  | case3 t v _ _ =>
    obtain ⟨x, hx, rfl⟩ := Option.map_eq_some_iff.1 h
    apply isValue_tags
    split at hx
    · cases hx
      exact .leaf rfl
    · exact hplain x hx

theorem filterMap_range {α : Type} (p : α → Bool) {xs : List α} {n : Nat} (hn : xs.length ≤ n) :
    ((List.range n).filterMap fun i => xs[i]?.filter p) = xs.filter p := by
  induction xs generalizing n with
  | nil => exact List.filterMap_eq_nil_iff.2 fun i _ => rfl
  | cons x xs ih =>
    cases n with
    | zero => cases hn
    | succ n =>
      have htail := ih (Nat.le_of_succ_le_succ hn)
      rw [List.range_succ_eq_map, List.filterMap_cons, List.filterMap_map, List.filter_cons]
      cases hx : p x with
      | false => simpa [hx, Option.filter_some, Function.comp_def] using htail
      | true => simpa [hx, Option.filter_some, Function.comp_def] using htail

/-- What is written of an object is as much as is counted. -/
theorem written_length {d : StructDef} {ms : List DocMember}
    (horder : (order d).Perm (List.range d.fields.length)) (hms : ms.length ≤ d.fields.length) :
    (written env order d ms).length = (ms.filter (DocMember.emitted env)).length := by
  rw [written, (horder.filterMap _).length_eq, filterMap_range _ hms]

theorem length_lowerFields (fs : List Field) (vs : List Val) :
    (lowerFields env tr order fs vs).length ≤ fs.length := by
  induction fs generalizing vs with
  | nil => rw [lowerFields]; exacts [Nat.le_refl _, fun _ _ _ _ h => nomatch h]
  | cons f fs ih =>
    cases vs with
    | nil => rw [lowerFields]; exacts [Nat.zero_le _, fun _ _ _ _ _ h => nomatch h]
    | cons v vs => exact Nat.succ_le_succ (ih vs)

theorem isValue_lowerStruct
    {d : StructDef} {tagKey tagValue : Bytes} {ms : List DocMember} {x : Doc}
    (horder : (order d).Perm (List.range d.fields.length))
    (hlen : ms.length ≤ d.fields.length) (hms : ∀ m ∈ ms, ∀ d, m.doc = some d → IsValue d.calls)
    (h : lowerStruct env tr order d tagKey tagValue ms = some x) : IsValue x.calls := by
  have hentries : ∀ es, ((written env order d ms).map (DocMember.entry env tr d)).mapM id =
    some es →
      es.length = (ms.filter (DocMember.emitted env)).length ∧ ∀ e ∈ es, IsValue e.2.calls := by
    intro es hes
    constructor
    · rw [length_mapM_id hes, List.length_map, written_length horder hlen]
    · refine mapM_id_forall hes fun e he => ?_
      obtain ⟨m, hm, he⟩ := List.mem_map.1 he
      obtain ⟨y, hy, rfl⟩ := Option.map_eq_some_iff.1 he
      obtain ⟨i, -, hi⟩ := List.mem_filterMap.1 hm
      exact isValue_lowerFieldValue
        (hms m (List.mem_of_getElem? (Option.filter_eq_some_iff.1 hi).1)) hy
  unfold lowerStruct at h
  split at h
  · -- the one member of a transparent struct
    split at h
    · exact hms _ List.mem_cons_self x h
    · cases h
  · obtain ⟨es, hes, h⟩ := Option.bind_eq_some_iff.1 h
    obtain ⟨hcount, hvalues⟩ := hentries es hes
    by_cases htag : tagKey = []
    · rw [if_pos htag] at h
      cases h
      rw [if_pos htag, Nat.add_zero]
      exact .map (.ordered _) (isEntries_calls hvalues) fun n hn =>
        (Option.some.inj hn).symm.trans hcount.symm
    · rw [if_neg htag] at h
      cases h
      rw [if_neg htag]
      refine isValue_map noField (List.forall_mem_cons.2 ⟨.leaf rfl, hvalues⟩) fun n hn => ?_
      rw [← Option.some.inj hn, List.length_cons, hcount]

theorem isValue_lowerTime (f : FieldMeta) (d : Duration) (v : Val) :
    IsValue (lowerTime env f d v).calls := by
  unfold lowerTime
  split
  · exact .leaf rfl
  · split
    · exact .leaf rfl
    · cases wholeSeconds (env.realOfTime d v) <;> exact .leaf rfl

theorem isValue_lowerEnum {f : FieldMeta} {e : EnumDef} {i : Int} {d : Doc}
    (h : lowerEnum tr f e i = some d) :
    IsValue d.calls := by
  unfold lowerEnum at h
  split at h
  · split at h
    · cases h
    · split at h <;>
      · cases h
        exact .leaf rfl
  · split at h
    · split at h
      · cases h
      · cases h
        exact .leaf rfl
    · cases h

theorem length_lowerAll (f : FieldMeta) (t : Ty) (vs : List Val) :
    (lowerAll env tr order f t vs).length = vs.length := by
  induction vs with
  | nil => rfl
  | cons v vs ih => rw [lowerAll, List.length_cons, List.length_cons, ih]

theorem length_lowerEntries (f : FieldMeta) (kt : KeyTy) (t : Ty) (es : List (Key × Val)) :
    (lowerEntries env tr order f kt t es).length = es.length := by
  induction es with
  | nil => rfl
  | cons e es ih =>
    obtain ⟨k, v⟩ := e
    rw [lowerEntries, List.length_cons, List.length_cons, ih]

/-- A range, whose count is known if its type is sized. -/
theorem isValue_range {f : FieldMeta} {t : Ty} {n : Nat} {xs : List (Option Doc)} {ds : List Doc}
    (hds : xs.mapM id = some ds) (hn : xs.length = n) (hxs : ∀ d, some d ∈ xs → IsValue d.calls) :
    IsValue (Doc.array f (sizeOf? env t n) ds).calls := by
  refine isValue_array f (mapM_id_forall hds hxs) fun m hm => ?_
  rw [sizeOf?_eq hm, length_mapM_id hds, hn]

mutual

/-- The calls of the document of a value are those of one value. -/
theorem isValue_lower (horder : ∀ d, (order d).Perm (List.range d.fields.length))
    (f : FieldMeta) (t : Ty) (v : Val) {d : Doc} (h : lower env tr order f t v = some d) :
    IsValue d.calls := by
  cases t with
  | bool =>
    cases v <;> cases h
    exact .leaf rfl
  | char =>
    cases v <;> cases h
    exact .leaf rfl
  | float =>
    cases v <;> cases h
    exact .leaf rfl
  | double =>
    cases v <;> cases h
    exact .leaf rfl
  | string view =>
    cases v <;> cases h
    exact .leaf rfl
  | byteRange r =>
    cases v <;> cases h
    exact .leaf rfl
  | time c =>
    cases v with
    | int i =>
      rw [lower] at h
      split at h <;> cases h
      exact isValue_lowerTime f c _
    | real x =>
      rw [lower] at h
      split at h <;> cases h
      exact isValue_lowerTime f c _
    | _ => cases h
  | int k =>
    cases v with
    | int i =>
      rw [lower] at h
      split at h <;> cases h <;> exact .leaf rfl
    | _ => cases h
  | enum e =>
    cases v with
    | int i => exact isValue_lowerEnum h
    | _ => cases h
  | optional t =>
    cases v with
    | some v => exact isValue_lower horder f t v h
    | null =>
      cases h
      exact .leaf rfl
    | _ => cases h
  | variant alts =>
    cases v with
    | variant i v =>
      rw [lower] at h
      cases halt : alts[i]? with
      | none =>
        rw [halt] at h
        cases h
      | some alt =>
        obtain ⟨name, t⟩ := alt
        rw [halt] at h
        cases htag : internallyTagged env t with
        | some c =>
          simp only [htag] at h
          cases v with
          | seq vs =>
            exact isValue_lowerStruct (horder c) (length_lowerFields _ vs)
              (isValue_lowerFields horder c.fields vs) h
          | _ => cases h
        | none =>
          simp only [htag] at h
          obtain ⟨x, hx, rfl⟩ := Option.map_eq_some_iff.1 h
          refine isValue_map noField (List.forall_mem_cons.2 ⟨.leaf rfl, ?_⟩) fun n hn =>
            (Option.some.inj hn).symm
          exact List.forall_mem_singleton.2 (isValue_lower horder noField t v hx)
    | _ => cases h
  | map kind kt t =>
    cases v with
    | map es =>
      obtain ⟨xs, hxs, rfl⟩ := Option.map_eq_some_iff.1 h
      refine isValue_map f (mapM_id_forall hxs (isValue_lowerEntries horder f kt t es))
        fun n hn => ?_
      rw [sizeOf?_eq hn, length_mapM_id hxs, length_lowerEntries]
    | _ => cases h
  | tuple ts =>
    cases v with
    | seq vs =>
      obtain ⟨ds, hds, rfl⟩ := Option.map_eq_some_iff.1 h
      exact isValue_array noField (mapM_id_forall hds (isValue_lowerEach horder f ts vs))
        fun n hn => (Option.some.inj hn).symm
    | _ => cases h
  | array n t =>
    cases v with
    | seq vs =>
      rw [lower] at h
      split at h
      · cases h
        exact .leaf rfl
      · obtain ⟨ds, hds, rfl⟩ := Option.map_eq_some_iff.1 h
        exact isValue_range hds (length_lowerAll f t vs) (isValue_lowerAll horder f t vs)
    | _ => cases h
  | seq kind t =>
    cases v with
    | seq vs =>
      rw [lower] at h
      split at h
      · cases h
        exact .leaf rfl
      · obtain ⟨ds, hds, rfl⟩ := Option.map_eq_some_iff.1 h
        exact isValue_range hds (length_lowerAll f t vs) (isValue_lowerAll horder f t vs)
    | _ => cases h
  | struct id =>
    cases v with
    | seq vs =>
      exact isValue_lowerStruct (horder _) (length_lowerFields _ vs)
        (isValue_lowerFields horder _ vs) h
    | _ => cases h

theorem isValue_lowerAll (horder : ∀ d, (order d).Perm (List.range d.fields.length))
    (f : FieldMeta) (t : Ty) (vs : List Val) (d : Doc)
    (h : some d ∈ lowerAll env tr order f t vs) : IsValue d.calls := by
  match vs with
  | [] => cases h
  | v :: vs =>
    rcases List.mem_cons.1 h with h | h
    · exact isValue_lower horder f t v h.symm
    · exact isValue_lowerAll horder f t vs d h

theorem isValue_lowerEach (horder : ∀ d, (order d).Perm (List.range d.fields.length))
    (f : FieldMeta) (ts : List Ty) (vs : List Val) (d : Doc)
    (h : some d ∈ lowerEach env tr order f ts vs) : IsValue d.calls := by
  match ts, vs with
  | t :: ts, v :: vs =>
    rcases List.mem_cons.1 h with h | h
    · exact isValue_lower horder f t v h.symm
    · exact isValue_lowerEach horder f ts vs d h
  | [], [] | [], _ :: _ | _ :: _, [] => cases h

theorem isValue_lowerFields (horder : ∀ d, (order d).Perm (List.range d.fields.length))
    (fs : List Field) (vs : List Val) (m : DocMember)
    (hm : m ∈ lowerFields env tr order fs vs) (d : Doc) (h : m.doc = some d) : IsValue d.calls := by
  match fs, vs with
  | f :: fs, v :: vs =>
    rcases List.mem_cons.1 hm with rfl | hm
    · exact isValue_lower horder f.info f.ty v h
    · exact isValue_lowerFields horder fs vs m hm d h
  | [], [] | [], _ :: _ | _ :: _, [] => cases hm

theorem isValue_lowerEntries (horder : ∀ d, (order d).Perm (List.range d.fields.length))
    (f : FieldMeta) (kt : KeyTy) (t : Ty) (es : List (Key × Val)) (e : DocKey × Doc)
    (h : some e ∈ lowerEntries env tr order f kt t es) : IsValue e.2.calls := by
  match es with
  | [] => cases h
  | (k, v) :: es =>
    rcases List.mem_cons.1 h with h | h
    · obtain ⟨key, -, h⟩ := Option.bind_eq_some_iff.1 h.symm
      obtain ⟨d, hd, rfl⟩ := Option.map_eq_some_iff.1 h
      exact isValue_lower horder f t v hd
    · exact isValue_lowerEntries horder f kt t es e h

end

/-- The calls of a top-level value are those of one value. -/
theorem isValue_lowerTop (horder : ∀ d, (order d).Perm (List.range d.fields.length))
    {t : Ty} {v : Val} {d : Doc} (h : lowerTop env tr order t v = some d) : IsValue d.calls :=
  isValue_lowerFieldValue (fun _ hx => isValue_lower horder noField t v hx) h

end

/-! ### The calls of an encoding -/

/-- Traversal makes the calls of one value: a run that ends on any sink of the format has played
what is noted. -/
def EmitsValue (env : Env) (tr : Traits) (order : StructDef → List Nat) (t : Ty) (v : Val) : Prop :=
  ∀ {ω : Type} (s : Sink ω), s.traits = tr → s.memberOrder = order →
    ∀ w w', encode env s t v w = .ok () w' →
    ∃ cs, encode env (recorder tr order) t v [] = .ok () cs ∧ IsValue cs ∧
      SinkCall.playAll s cs w = .ok () w'

theorem emitsValue_of_perm (env : Env) (horder : ∀ d, (order d).Perm (List.range d.fields.length))
    (t : Ty) (v : Val) :
    EmitsValue env tr order t v := by
  intro ω s htraits hmembers w w' hrun
  obtain ⟨d, hd, hemit⟩ := encode_ok_iff.1 hrun
  rw [htraits, hmembers] at hd
  refine ⟨d.calls, ?_, isValue_lowerTop horder hd, (emit_eq s d) ▸ hemit⟩
  refine encode_ok_iff.2 ⟨d, hd, ?_⟩
  rw [emit_eq, playAll_recorder, List.nil_append]

/-- The `member_order` of a format that has none of its own. -/
def declarationOrder (d : StructDef) : List Nat := List.range d.fields.length

/-- Of any value, CBOR and JSON encoding make the calls of one value. -/
theorem encode_emitsValue (env : Env) (t : Ty) (v : Val) :
    EmitsValue env Cbor.traits Cbor.memberOrder t v ∧
      EmitsValue env Json.traits declarationOrder t v :=
  ⟨emitsValue_of_perm env (fun _ => List.perm_insertionSort _ _) t v,
    emitsValue_of_perm env (fun _ => .refl _) t v⟩

end VCodec
