import VCodec.Cbor.Transparent

/-!
# Tagged variants

The discriminator is looked for among keys that are read as text, and so are the keys behind it: an
integer key of the alternative stops both passes, wherever it stands.
-/

namespace VCodec.Cbor

open VCodec.D

/-- The text that an item is read as. -/
def Item.readText : Item → Option Bytes
  | .str true _ b => some b
  | .chunked true cs => some (cs.flatMap Chunk.payload)
  | .tag _ x => x.readText
  | _ => none

theorem Item.readText_bare (x : Item) : x.bare.readText = x.readText := by
  induction x using Item.bare.induct with
  | case1 h x ih => exact ih
  | case2 x hplain => cases x <;> first | rfl | exact absurd rfl (hplain _ _)

section

variable {env : Env} {D : Options} {inp : Bytes} {s u : State} {k : Item}

namespace Lies

theorem expectText_bare (hreach : D.ignoreUnknownTags = true ∨ k.bare = k) (hl : Lies D inp k s u) :
    ∃ t, Cbor.expectText D inp s = Cbor.expectText D inp t ∧ Lies D inp k.bare t u :=
  hl.reach_bind hreach _ _

theorem readText_some (hreach : D.ignoreUnknownTags = true ∨ k.bare = k)
    (hl : Lies D inp k s u) {b : Bytes} (hk : k.readText = some b) :
    ∃ ref t, Cbor.expectText D inp s = .ok ref t ∧ Same t u ∧ ref.text = b := by
  obtain ⟨t, heq, hbare⟩ := hl.expectText_bare hreach
  have htag := hl.accepts.bare.2
  rw [← k.readText_bare] at hk
  rw [heq]
  generalize k.bare = x at hk hbare htag
  cases x with
  | str isText h c =>
    cases isText with
    | true =>
      obtain rfl := Option.some.inj hk
      obtain ⟨ref, w, hrun, hsame, htext, -⟩ := hbare.expectText
      exact ⟨ref, w, hrun, hsame, htext⟩
    | false => cases hk
  | chunked isText cs =>
    cases isText with
    | true =>
      obtain rfl := Option.some.inj hk
      obtain ⟨ref, w, hrun, hsame, htext, -⟩ := hbare.expectText_chunks
      exact ⟨ref, w, hrun, hsame, htext⟩
    | false => cases hk
  | tag h x => exact absurd rfl htag
  | _ => cases hk

theorem readText_none (ht : Takes D) (hl : Lies D inp k s u) (hk : k.readText = none)
    (ref : TextRef) (t : State) :
    Cbor.expectText D inp s ≠ .ok ref t := by
  obtain ⟨w, heq, hbare⟩ := hl.expectText_bare (.inl ht.tags)
  have htag := hl.accepts.bare.2
  rw [← k.readText_bare] at hk
  rw [heq]
  generalize k.bare = x at hk hbare htag
  refine hbare.expectText_ne htag ?_ ref t
  cases x with
  | str isText h c | chunked isText c =>
    cases isText with
    | true => cases hk
    | false => exact nofun
  | leaf m h =>
    rintro rfl
    rcases hbare.accepts.node.1.1 with h | h | h <;> cases h
  | container isMap count xs => cases isMap <;> exact nofun
  | tag h x => exact absurd rfl htag

end Lies

/-! ### The first pass -/

/-- The entries behind the discriminator are passed over if all of their keys are text. -/
theorem consumeRest_items (ha : Addressable D inp) (ht : Takes D) {es : List (Item × Item)}
    (hes : ∀ e ∈ es, e.1.readText.isSome = true) {fuel : Nat} {c : MapCursor} {out : Val}
    (hfuel : es.length < fuel) (hin : Entries D inp c es s u) :
    ∃ b, consumeRest (reader env D inp) fuel c { reader := s, out := out } = .ok () b := by
  induction es generalizing fuel c s with
  | nil =>
    obtain ⟨fuel, rfl⟩ : ∃ n, fuel = n + 1 := ⟨fuel - 1, by simp at hfuel; omega⟩
    obtain ⟨c', w, hnext, -⟩ := MapCursor.next_end hin
    refine ⟨{ reader := w, out := out }, ?_⟩
    rw [consumeRest, call_bind hnext]
    exact rfl
  | cons e es ih =>
    obtain ⟨fuel, rfl⟩ : ∃ n, fuel = n + 1 := ⟨fuel - 1, by simp at hfuel; omega⟩
    obtain ⟨hkey, hes⟩ := List.forall_mem_cons.1 hes
    obtain ⟨x, hx⟩ := Option.isSome_iff_exists.1 hkey
    obtain ⟨c', t, t', t'', hnext, hk, hv, hrest⟩ := MapCursor.next_at ha hin
    obtain ⟨ref, w, htext, hsame, -⟩ := hk.readText_some (.inl ht.tags) hx
    obtain ⟨w', hskip, hsame'⟩ := (hv.same hsame).skipValue
    obtain ⟨b, hb⟩ := ih hes (Nat.lt_of_succ_lt_succ hfuel) ⟨hrest.rest.same hsame', hrest.ascend⟩
    refine ⟨b, ?_⟩
    rw [consumeRest, call_bind hnext]
    simp only [if_true]
    rw [call_bind htext, call_bind hskip]
    exact hb

theorem text_of_call (ht : Takes D) (hl : Lies D inp k s u) {ref : TextRef} {out : Val}
    {b : Build State}
    (hrun : (call (expectText D inp) : VCodec.D State TextRef) { reader := s, out := out } =
      .ok ref b) :
    k.readText = some ref.text ∧ Same b.reader u := by
  obtain ⟨t, hread, rfl⟩ := call_eq_ok.1 hrun
  cases hk : k.readText with
  | none => exact absurd hread (hl.readText_none ht hk ref t)
  | some x =>
    obtain ⟨ref', t', hread', hsame, rfl⟩ := hl.readText_some (.inl ht.tags) hk
    have heq := hread.symm.trans hread'
    cases heq
    exact ⟨rfl, hsame⟩

theorem skip_of_call {x : Item} (hl : Lies D inp x s u) {out : Val} {b : Build State}
    (hrun : (call (skipValue D inp) : VCodec.D State Unit) { reader := s, out := out } = .ok () b) :
    Same b.reader u := by
  obtain ⟨t, hskip, rfl⟩ := call_eq_ok.1 hrun
  obtain ⟨t', hskip', hsame⟩ := hl.skipValue
  have heq := hskip.symm.trans hskip'
  cases heq
  exact hsame

/-- What is passed over has text keys. -/
theorem texts_of_consumeRest (ha : Addressable D inp) (ht : Takes D) {es : List (Item × Item)}
    {fuel : Nat} {c : MapCursor} {out : Val} (hin : Entries D inp c es s u) {b : Build State}
    (hrun : consumeRest (reader env D inp) fuel c { reader := s, out := out } = .ok () b) :
    ∀ e ∈ es, e.1.readText.isSome = true := by
  induction es generalizing fuel c s out with
  | nil => exact List.forall_mem_nil _
  | cons e es ih =>
    cases fuel with
    | zero => cases hrun
    | succ fuel =>
      obtain ⟨c', t, t', t'', hnext, hk, hv, hrest⟩ := MapCursor.next_at ha hin
      rw [consumeRest, call_bind hnext] at hrun
      simp only [if_true] at hrun
      obtain ⟨ref, b₁, hkey, hrun⟩ := Run.bind_eq_ok.1 hrun
      obtain ⟨hread, hsame⟩ := text_of_call ht hk hkey
      obtain ⟨_, b₂, hskip, hrun⟩ := Run.bind_eq_ok.1 hrun
      have hsame' := skip_of_call (hv.same hsame) hskip
      exact List.forall_mem_cons.2
        ⟨by rw [hread]; rfl, ih ⟨hrest.rest.same hsame', hrest.ascend⟩ hrun⟩

/-- The discriminator is found wherever it stands, if all keys are text. -/
theorem findTag_items (ha : Addressable D inp) (ht : Takes D) {tagKey name : Bytes}
    {es : List (Item × Item)}
    (hes : ∀ e ∈ es, e.1.readText.isSome = true)
    (honly : ∀ e ∈ es, e.1.readText = some tagKey → e.2.readText = some name)
    (hmem : ∃ e ∈ es, e.1.readText = some tagKey) {fuel : Nat} {c : MapCursor} {out : Val}
    (hfuel : es.length < fuel) (hin : Entries D inp c es s u) :
    ∃ off b, findTag (reader env D inp) tagKey fuel c { reader := s, out := out } =
      .ok (some (off, name)) b := by
  induction es generalizing fuel c s with
  | nil =>
    obtain ⟨e, he, -⟩ := hmem
    cases he
  | cons e es ih =>
    obtain ⟨fuel, rfl⟩ : ∃ n, fuel = n + 1 := ⟨fuel - 1, by simp at hfuel; omega⟩
    have hlt := Nat.lt_of_succ_lt_succ hfuel
    rw [List.forall_mem_cons] at hes honly
    obtain ⟨x, hx⟩ := Option.isSome_iff_exists.1 hes.1
    obtain ⟨c', t, t', t'', hnext, hk, hv, hrest⟩ := MapCursor.next_at ha hin
    have hoffset : (reader env D inp).offset t = .ok t.pos t := rfl
    obtain ⟨ref, w, htext, hsame, rfl⟩ := hk.readText_some (.inl ht.tags) hx
    rw [findTag]
    by_cases htag : ref.text = tagKey
    · have hname := honly.1 (htag ▸ hx)
      have hoffset' : (reader env D inp).offset w = .ok w.pos w := rfl
      obtain ⟨tv, w', hread, hsame', rfl⟩ := (hv.same hsame).readText_some (.inl ht.tags) hname
      have hin' : Entries D inp c' es w' u := ⟨hrest.rest.same hsame', hrest.ascend⟩
      obtain ⟨b, hb⟩ : ∃ b, consumeRest (reader env D inp) fuel c' { reader := w', out := out } =
        .ok () b :=
        consumeRest_items ha ht hes.2 hlt hin'
      refine ⟨w.pos, b, ?_⟩
      rw [call_bind hnext]
      simp only [if_true]
      rw [call_bind hoffset, call_bind htext, if_pos htag, call_bind hoffset', call_bind hread,
        Run.bind_of_ok hb]
      exact rfl
    · obtain ⟨w', hskip, hsame'⟩ := (hv.same hsame).skipValue
      have hlater : ∃ e ∈ es, e.1.readText = some tagKey := by
        obtain ⟨y, hy, hkey⟩ := hmem
        rcases List.mem_cons.1 hy with rfl | hy
        · exact absurd (Option.some.inj (hx.symm.trans hkey)) htag
        · exact ⟨y, hy, hkey⟩
      obtain ⟨off, b, hb⟩ := ih hes.2 honly.2 hlater hlt ⟨hrest.rest.same hsame', hrest.ascend⟩
      refine ⟨off, b, ?_⟩
      rw [call_bind hnext]
      simp only [if_true]
      rw [call_bind hoffset, call_bind htext, if_neg htag, call_bind hskip]
      exact hb

/-- Where a discriminator is found, all keys are text: those before it and those behind it. -/
theorem texts_of_findTag
    (ha : Addressable D inp) (ht : Takes D) {tagKey : Bytes} {es : List (Item × Item)}
    {fuel : Nat} {c : MapCursor} {out : Val} (hin : Entries D inp c es s u)
    {tag : Option (Nat × Bytes)}
    {b : Build State}
    (hrun : findTag (reader env D inp) tagKey fuel c { reader := s, out := out } = .ok tag b) :
    ∀ e ∈ es, e.1.readText.isSome = true := by
  induction es generalizing fuel c s out with
  | nil => exact List.forall_mem_nil _
  | cons e es ih =>
    cases fuel with
    | zero => cases hrun
    | succ fuel =>
      obtain ⟨c', t, t', t'', hnext, hk, hv, hrest⟩ := MapCursor.next_at ha hin
      have hoffset : (reader env D inp).offset t = .ok t.pos t := rfl
      rw [findTag, call_bind hnext] at hrun
      simp only [if_true] at hrun
      rw [call_bind hoffset] at hrun
      obtain ⟨ref, b₁, hkey, hrun⟩ := Run.bind_eq_ok.1 hrun
      obtain ⟨hread, hsame⟩ := text_of_call ht hk hkey
      refine List.forall_mem_cons.2 ⟨by rw [hread]; rfl, ?_⟩
      rw [Run.ite_apply] at hrun
      split at hrun
      · have hoffset' : (reader env D inp).offset b₁.reader = .ok b₁.reader.pos b₁.reader := rfl
        rw [call_bind hoffset'] at hrun
        obtain ⟨tv, b₂, hname, hrun⟩ := Run.bind_eq_ok.1 hrun
        obtain ⟨-, hsame'⟩ := text_of_call ht (hv.same hsame) hname
        obtain ⟨_, b₃, hrest', -⟩ := Run.bind_eq_ok.1 hrun
        exact texts_of_consumeRest ha ht ⟨hrest.rest.same hsame', hrest.ascend⟩ hrest'
      · obtain ⟨_, b₂, hskip, hrun⟩ := Run.bind_eq_ok.1 hrun
        exact ih ⟨hrest.rest.same (skip_of_call (hv.same hsame) hskip), hrest.ascend⟩ hrun

/-- With every bound that is large enough, the first pass over the map ahead finds this
discriminator. -/
def FindsTag (env : Env) (D : Options) (inp : Bytes) (s : State) (tagKey name : Bytes) : Prop :=
  ∃ n, ∀ fuel, n ≤ fuel → ∃ off b,
    (do
      let c ← call (expectMap D inp)
      findTag (reader env D inp) tagKey fuel c : VCodec.D State (Option (Nat × Bytes))) { reader := s, out := .null } =
      .ok (some (off, name)) b

theorem Lies.expectMap {count : Option Head} {es : List (Item × Item)}
    (hl : Lies D inp (.container true count (alternate es)) s u)
    (hcount : ∀ h ∈ count, h.value = es.length) :
    ∃ c t, Cbor.expectMap D inp s = .ok c t ∧ Entries D inp c es t u := by
  obtain ⟨t, hrun, hrest⟩ := hl.expectContainer hcount (str "map")
  refine ⟨{ remaining := count.map Head.value }, t, ?_, hrest, fun hdet => ?_⟩
  · unfold Cbor.expectMap
    rw [Run.bind_of_ok hrun]
    exact rfl
  · have hnode := hl.accepts.node.2.2 hdet
    cases count with
    | none => exact hnode.elim
    | some h => exact hnode.2 rfl

theorem findsTag_iff (ha : Addressable D inp) (ht : Takes D) {count : Option Head}
    {es : List (Item × Item)} (hl : Lies D inp (.container true count (alternate es)) s u)
    (hcount : ∀ h ∈ count, h.value = es.length) {tagKey name : Bytes}
    (honly : ∀ e ∈ es, e.1.readText = some tagKey → e.2.readText = some name)
    (hmem : ∃ e ∈ es, e.1.readText = some tagKey) :
    FindsTag env D inp s tagKey name ↔ ∀ e ∈ es, e.1.readText.isSome = true := by
  obtain ⟨c, t, hrun, hin⟩ := hl.expectMap hcount
  constructor
  · rintro ⟨n, hfinds⟩
    obtain ⟨off, b, hb⟩ := hfinds n le_rfl
    rw [call_bind hrun] at hb
    exact texts_of_findTag ha ht hin hb
  · refine fun hes => ⟨es.length + 1, fun fuel hfuel => ?_⟩
    obtain ⟨off, b, hb⟩ : ∃ off b, findTag (reader env D inp) tagKey fuel c { reader := t, out := .null } =
        .ok (some (off, name)) b := findTag_items ha ht hes honly hmem hfuel hin
    refine ⟨off, b, ?_⟩
    rw [call_bind hrun]
    exact hb

/-- A value that holds tagged variants comes back if it is intact apart from the keys of their
alternatives, and these are text; and only then, if none of it is taken for something else. A
discriminator is found in a map exactly if all of its keys are text. -/
theorem decodes_tagged_iff (hp : Program env) :
    (∀ {o : Options} {t : Ty} {v : Val} {bs : Bytes}, o.maxDepth ≤ 256 → o.validateUtf8 = true →
      Proper env noField t v → encode env o t v = .ok bs → bs.length < 2 ^ 48 →
      (Clear env (format (effective env o t)) noField t v ∧ Intact env o .keys t v ∧
          KeptMember env (format (effective env o t)) (· = .keys) noField t (t.zero env) v →
            Decodes env {} t bs v) ∧
        (Decodes env {} t bs v → Clear env (format (effective env o t)) noField t v →
          Intact env o .keys t v ∧ KeptMember env (format (effective env o t)) (· = .keys) noField t
            (t.zero env) v)) ∧
    ∀ {D : Options} {inp : Bytes} {s u : State} {count : Option Head} {es : List (Item × Item)}
      {tagKey name : Bytes},
      Addressable D inp → Takes D → Lies D inp (.container true count (alternate es)) s u →
      (∀ h ∈ count, h.value = es.length) →
        (∀ e ∈ es, e.1.readText = some tagKey → e.2.readText = some name) →
      (∃ e ∈ es, e.1.readText = some tagKey) →
      (FindsTag env D inp s tagKey name ↔ ∀ e ∈ es, e.1.readText.isSome = true) := by
  constructor
  · intro o t v bs hdepth hutf hv henc hlen
    have hdecodes := fun hclear => decodes_intact hp .keys hdepth hutf hv hclear henc hlen
    exact ⟨fun h => (hdecodes h.1).2 h.2, fun h hclear => (hdecodes hclear).1 h⟩
  · exact fun ha ht hl hcount honly hmem => findsTag_iff ha ht hl hcount honly hmem

end

/-- `struct circle { std::int32_t r; };`, the member with this `cbor::key`. -/
def circle (key : Option Int) : StructDef where
  name := str "circle"
  fields := [{
    info := { isMember := true, identifier := str "r", key := key }
    ty := .int ⟨true, .w32⟩
    wireName := str "r"
    required := true
    initial := .int 0 }]

/-- `struct drawing { [[=tag("type")]] std::variant<circle> shape; };` -/
def drawing : StructDef where
  name := str "drawing"
  fields := [{
    info := { isMember := true, identifier := str "shape", tagKey := some (str "type") }
    ty := .variant [(str "circle", .struct 1)]
    wireName := str "shape"
    required := true
    initial := .variant 0 (.seq [.int 0]) }]

def drawingEnv (key : Option Int) : Env :=
  schemaEnv fun id => if id = 0 then drawing else circle key

theorem drawing_program {key : Option Int} (hkey : ∀ k ∈ key, Int64Range k) :
    Program (drawingEnv key) := by
  refine program_of (fun id f hf => ?_) fun id => ?_
  · simp only [schemaEnv] at hf
    split at hf <;> obtain rfl := List.mem_singleton.1 hf <;>
      exact ⟨.whole rfl, fun _ h => by cases h⟩
  · split
    · exact ⟨by decide, by decide, by decide, nofun, by decide, by decide⟩
    · refine ⟨List.nodup_singleton _, ?_, fun f hf k hk => ?_, nofun, fun f hf => ?_,
        List.forall_mem_nil _⟩
      · cases key with
        | none => exact List.nodup_nil
        | some k => exact List.nodup_singleton k
      · obtain rfl := List.mem_singleton.1 hf
        cases key <;> cases hk
        exact hkey _ rfl
      · obtain rfl := List.mem_singleton.1 hf
        exact List.forall_mem_nil _

/-- `drawing { circle { 5 } }` -/
def fiveCircle : Val := .seq [.variant 0 (.seq [.int 5])]

theorem drawing_proper (key : Option Int) :
    Proper (drawingEnv key) noField (.struct 0) fiveCircle :=
  ⟨⟨rfl, _, rfl, (by decide : IntTy.Holds ⟨true, .w32⟩ 5), trivial⟩, trivial⟩

theorem drawing_clear {F : Format} (key : Option Int) :
    Clear (drawingEnv key) F noField (.struct 0) fiveCircle := by
  refine Unmixed.clear (t := .struct 0) (fun id f hf => ?_) trivial _
  simp only [drawingEnv, schemaEnv] at hf
  split at hf
  · obtain rfl := List.mem_singleton.1 hf
    refine ⟨fun i alt tagKey halt htag => ?_, trivial, trivial⟩
    cases htag
    cases i with
    | zero =>
      cases halt
      exact ⟨rfl, fun d hd => (by cases hd; rfl), fun h => by cases h⟩
    | succ i => cases halt
  · obtain rfl := List.mem_singleton.1 hf
    exact trivial

/-- `{"shape": {1: 5, "type": "circle"}}` -/
def drawingBytes : Bytes :=
  [0xA1, 0x65, 0x73, 0x68, 0x61, 0x70, 0x65, 0xA2, 0x01, 0x05, 0x64, 0x74, 0x79, 0x70, 0x65, 0x66,
    0x63, 0x69, 0x72, 0x63, 0x6C, 0x65]

/-- `{"shape": {"r": 5, "type": "circle"}}` -/
def textDrawingBytes : Bytes :=
  [0xA1, 0x65, 0x73, 0x68, 0x61, 0x70, 0x65, 0xA2, 0x61, 0x72, 0x05, 0x64, 0x74, 0x79, 0x70, 0x65,
    0x66, 0x63, 0x69, 0x72, 0x63, 0x6C, 0x65]

/-- The entry `"t": "c"`. -/
def tagEntries : List (Item × Item) := [(.str true (headOf 1) [0x74], .str true (headOf 1) [0x63])]

theorem tagEntries_lie :
    Lies {} [0xA1, 0x61, 0x74, 0x61, 0x63]
    (.container true (some (headOf 1)) (alternate tagEntries)) {}
      (({} : State).advance 5) where
  accepts := by
    refine sat_container.2
      ⟨⟨(by decide : (alternate tagEntries).length = skipCount true (headOf 1).value),
      fun _ => trivial, nofun⟩,
      by decide, ?_⟩
    refine List.forall_mem_cons.2 ⟨?_, List.forall_mem_singleton.2 ?_⟩
    · exact accepts_str (t := [0x74]) (by decide) fun _ _ => by decide
    · exact accepts_str (t := [0x63]) (by decide) fun _ _ => by decide
  low := by decide
  ahead := ⟨[], by decide⟩
  behind := ⟨rfl, rfl⟩

/-- A circle with a text key comes back. -/
theorem decodes_tagged_iff_witness :
    Decodes (drawingEnv none) {} (.struct 0) textDrawingBytes fiveCircle ∧
      FindsTag (drawingEnv none) {} [0xA1, 0x61, 0x74, 0x61, 0x63] {} [0x74] [0x63] := by
  have hprogram : Program (drawingEnv none) := drawing_program nofun
  have hboth := decodes_tagged_iff hprogram
  have henc : encode (drawingEnv none) {} (.struct 0) fiveCircle = .ok textDrawingBytes := rfl
  refine ⟨(hboth.1 (by decide) rfl (drawing_proper none) henc (by decide)).1
    ⟨drawing_clear none, ?_, ?_⟩, ?_⟩
  · have hentries : Legible (effective (drawingEnv none) {} (.struct 0)) false
        (.map noField (some 2) [(.text (str "type"), .text noField (str "circle")),
          (.name (str "r"), .sint noField 5)]) :=
      ⟨trivial, fun h => Bool.noConfusion h.1, (by decide : Utf8.Valid (str "r")), trivial, trivial⟩
    exact ⟨_, rfl, ⟨nofun, (by decide : Utf8.Valid (str "shape")), hentries, trivial⟩, fun h => h.2,
      .inr ⟨.inr ⟨fun _ => by decide, fun h => absurd rfl h, .inr trivial, trivial⟩, trivial⟩⟩
  · refine .inr ⟨.inr ⟨nofun, fun _ g w hmem _ => ?_, .inr trivial, trivial⟩, trivial⟩
    cases List.mem_singleton.1 hmem
    exact ⟨_, rfl⟩
  · refine (hboth.2 ⟨by decide, by decide⟩ ⟨rfl, rfl, rfl, rfl⟩ tagEntries_lie (by decide)
      (by decide) ?_).2 (by decide)
    exact ⟨_, List.mem_singleton_self _, rfl⟩

theorem decodes_tagged_not_drawing :
    encode (drawingEnv (some 1)) {} (.struct 0) fiveCircle = .ok drawingBytes ∧
      ¬ Decodes (drawingEnv (some 1)) {} (.struct 0) drawingBytes fiveCircle := by
  have henc : encode (drawingEnv (some 1)) {} (.struct 0) fiveCircle = .ok drawingBytes := rfl
  have hprogram : Program (drawingEnv (some 1)) := drawing_program (by decide)
  refine ⟨henc, fun h => ?_⟩
  rcases ((decodes_intact hprogram .keys (by decide) rfl (drawing_proper _) (drawing_clear _) henc
    (by decide)).1 h).2
    with hbulk | hkept
  · cases hbulk
  · rcases hkept.1 with hbulk | halternative
    · cases hbulk
    · obtain ⟨k, hk⟩ := halternative.2.1 rfl _ _ (List.mem_singleton_self _) rfl
      cases hk

end VCodec.Cbor
