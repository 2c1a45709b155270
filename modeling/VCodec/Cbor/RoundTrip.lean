import VCodec.Cbor.Fits
import VCodec.Cbor.Typed

/-!
# Decoding what was encoded

The bytes that the writer makes of a value are read back as that value exactly if the reader accepts
the item, no tag of it is taken for the self-describe tag, and every part of the value comes back
from its own document.
-/

namespace VCodec.Cbor

open D

/-! ### What the reader makes of the bytes of a document -/

/-- A node that an item written for a document has. -/
abbrev WrittenNode (x : Item) : Prop := LaxNode x ∧ ShortTag x

section

variable {o : Options}

theorem Sat.mono {p : Item → Prop} {max max' n : Nat} {x : Item} (h : Sat p max n x)
    (hle : max ≤ max') :
    Sat p max' n x := by
  induction h with
  | leaf hp => exact .leaf hp
  | str hp => exact .str hp
  | chunked hp => exact .chunked hp
  | container hp hd _ ih => exact .container hp (hd.trans_le hle) ih
  | tag hp _ ih => exact .tag hp ih

theorem written_str (isText indefinite : Bool) {t : Bytes} (ht : t.length < 2 ^ 63) (n : Nat) :
    Sat WrittenNode o.maxDepth n (strItem o isText indefinite t) := by
  unfold strItem
  split
  · refine .chunked ⟨fun c hc => ?_, trivial⟩
    obtain ⟨h, hhead, hlen⟩ := chunkList_lax isText t.length t c hc
    rw [hhead]
    exact hlen
  · exact .str ⟨(headOf_value (lt64 ht)).symm, trivial⟩

theorem written_int (i : Int) (n : Nat) : Sat WrittenNode o.maxDepth n (intItem i) := by
  unfold intItem
  split
  · exact .leaf ⟨⟨.inl rfl, fun h => by cases h⟩, trivial⟩
  · exact .leaf ⟨⟨.inr (.inl rfl), fun h => by cases h⟩, trivial⟩

theorem written_simple {h : Head} (hai : h.ai ≠ 24) (n : Nat) :
    Sat WrittenNode o.maxDepth n (.leaf .simple h) :=
  .leaf ⟨⟨.inr (.inr rfl), fun _ h => absurd h hai⟩, trivial⟩

theorem written_uint (k n : Nat) : Sat WrittenNode o.maxDepth n (.leaf .uint (headOf k)) :=
  .leaf ⟨⟨.inl rfl, fun h => by cases h⟩, trivial⟩

theorem written_key {k : DocKey} (hk : FitsKey k) (n : Nat) :
    Sat WrittenNode o.maxDepth n (keyItem k) := by
  cases k with
  | text k | name k => exact .str ⟨(headOf_value (lt64 hk)).symm, trivial⟩
  | uint k => exact written_uint k n
  | sint i | intName i => exact written_int i n

theorem written_container {isMap : Bool} {count : Option Nat} {xs : List Item} {k n : Nat}
    (hlen : xs.length = if isMap then 2 * k else k) (hk : k < 2 ^ 63) (hcount : ∀ c ∈ count, c = k)
    (hn : n < o.maxDepth) (hxs : ∀ x ∈ xs, Sat WrittenNode o.maxDepth (n + 1) x) :
    Sat WrittenNode o.maxDepth n (.container isMap (count.map headOf) xs) := by
  have hnode := container_node (D := { requireDeterministic := false }) isMap xs hlen hk hcount
    fun h => by cases h
  exact .container ⟨(hnode.2 fun h => by cases h).1, trivial⟩ hn hxs

end

section

variable (o : Options)

mutual

/-- What is written for a document is one item. -/
theorem written_docItem {n : Nat} {d : Doc} (hsound : Sound o n d) (hfits : Fits d) :
    Sat WrittenNode o.maxDepth n (docItem o d) := by
  cases d with
  | null => exact written_simple (by decide) n
  | boolean b => exact written_simple (by cases b <;> decide) n
  | uint f k => exact written_uint k n
  | sint f i => exact written_int i n
  | real f x =>
    have hai := floatHead_ai x (f.floatWidth.getD o.floats)
    exact written_simple (by omega) n
  | text f t => exact written_str true f.indefinite hfits n
  | bytes f b => exact written_str false f.indefinite hfits n
  | range t v =>
    exact .tag ⟨trivial, headOf_shortest _⟩ (.str ⟨(headOf_value (lt64 hfits)).symm, trivial⟩)
  | tag k d => exact .tag ⟨trivial, headOf_shortest _⟩ (written_docItem hsound hfits.2)
  | array f c ds =>
    obtain ⟨hlen, hcount, hds⟩ := hfits
    exact written_container (length_docItems ds) hlen (arrayCount_eq hcount) hsound.1
      (written_each hsound.2 hds)
  | map f c es =>
    obtain ⟨hlen, hcount, hes⟩ := hfits
    have hentries := written_entries hsound.2 hes
    have hperm : (if o.deterministic then sortEntries (docEntries o es) else docEntries o es).Perm
      (docEntries o es) := by
      split
      · exact List.perm_insertionSort _ _
      · exact .refl _
    refine written_container (k := es.length) ?_ hlen (fun k hk => ?_) hsound.1
      (forall_mem_alternate.2 fun e he => ?_)
    · rw [length_alternate, hperm.length_eq, length_docEntries, if_pos rfl]
    · split at hk
      · exact (Option.mem_some_iff.1 hk).symm
      · exact laxCount_eq hcount hk
    · exact hentries e (hperm.mem_iff.1 he)
  | members c es =>
    obtain ⟨hlen, rfl, hes⟩ := hfits
    have hentries := written_entries hsound.2 hes
    refine written_container (k := es.length) ?_ hlen (fun k hk => ?_) hsound.1
      (forall_mem_alternate.2 hentries)
    · rw [length_alternate, length_docEntries, if_pos rfl]
    · split at hk
      · exact (Option.mem_some_iff.1 hk).symm
      · cases hk

theorem written_each {n : Nat} {ds : List Doc} (hsound : SoundAll o n ds) (hfits : FitsEach ds) :
    ∀ x ∈ docItems o ds, Sat WrittenNode o.maxDepth n x := by
  match ds with
  | [] => exact List.forall_mem_nil _
  | d :: ds =>
    rw [docItems]
    exact List.forall_mem_cons.2 ⟨written_docItem hsound.1 hfits.1, written_each hsound.2 hfits.2⟩

theorem written_entries {n : Nat} {es : List (DocKey × Doc)}
    (hsound : SoundEntries o n es) (hfits : FitsEntries es) :
    ∀ e ∈ docEntries o es, Sat WrittenNode o.maxDepth n e.1 ∧ Sat WrittenNode o.maxDepth n e.2 := by
  match es with
  | [] => exact List.forall_mem_nil _
  | (k, d) :: es =>
    rw [docEntries]
    exact List.forall_mem_cons.2
      ⟨⟨written_key hfits.1 n, written_docItem hsound.2.1 hfits.2.1⟩,
        written_entries hsound.2.2 hfits.2.2⟩

end

end

section

variable {o D : Options} {inp : Bytes} {s : State} {d : Doc} {r : Bytes}

/-- Where a reader has passed the bytes of a document, it accepts its item. -/
theorem accepts_of_spans (hs : Suits o D) (hsound : Sound o s.depth d) (hfits : Fits d)
    (hin : inp.drop s.pos = (docItem o d).bytes ++ r) {t : State} (hspan : Spans D inp s t) :
    Accepts D s.depth (docItem o d) := by
  obtain ⟨x, r', hx, hin', -, -⟩ := hspan
  have hwritten := written_docItem o hsound hfits
  have hlax : Sat LaxNode o.maxDepth s.depth (docItem o d) := hwritten.imp fun _ h => h.1
  obtain ⟨rfl, -⟩ :=
    hlax.unambiguous x _ _ _ _ (hx.lenient.imp fun _ h => h.1) (hin.symm.trans hin')
  exact hx.accepts fun _ => (hwritten.imp fun _ h => h.2).mono hs.depth

end

/-! ### A tag that is taken for the self-describe tag -/

/-- The document begins with the self-describe tag. -/
def Described : Doc → Prop
  | .tag n _ => n = selfDescribeTag
  | _ => False

section

variable {o D : Options} {inp : Bytes} {s u : State} {d : Doc}

theorem front_described {d : Doc} (hfits : Fits d) :
    (frontHead (docItem o d)).mt = .tag ∧ (frontHead (docItem o d)).value = selfDescribeTag ↔
      Described d := by
  by_cases hplain : d.Plain
  · refine iff_of_false (fun h => front_plain hplain ((frontHead_mt _).symm.trans h.1)) fun h => ?_
    cases d <;> first | exact h | exact hplain
  · cases d with
    | tag n d =>
      have hvalue : (frontHead (docItem o (.tag n d))).value = n := headOf_value hfits.1
      rw [hvalue]
      exact and_iff_right rfl
    | range t v =>
      have hlt := typedArrayTag_lt (rangeShape t).1
      have hvalue : (frontHead (docItem o (.range t v))).value = typedArrayTag (rangeShape t).1 :=
        headOf_value (by omega)
      refine iff_of_false (fun h => ?_) id
      rw [hvalue, selfDescribeTag] at h
      omega
    | _ => exact absurd trivial hplain

theorem start_item {x : Item} {r : Bytes} (hin : inp.drop s.pos = x.bytes ++ r) :
    start inp s = if (frontHead x).mt = .tag ∧
      (frontHead x).value = selfDescribeTag then s.advance (frontHead x).length
      else s := by
  have hlen : (frontHead x).length ≠ 0 := frontHead_length x ▸ (frontBytes_pos _).ne'
  unfold start
  rw [parseHead_front hin]
  simp only [hlen, ne_eq, not_false_eq_true, true_and]

/-- Fewer tags stand there than are expected. -/
theorem expectTags_short {ts us : List Nat} (hlen : us.length < ts.length) (hd : d.Plain)
    (hat : DocAt o D inp (us.foldr Doc.tag d) s u) (w : State) :
    expectTags inp ts s ≠ .ok () w := by
  induction ts generalizing us s with
  | nil => cases hlen
  | cons t ts ih =>
    cases us with
    | nil => exact hat.lies.expectTags_ne (front_plain hd) t ts w
    | cons n us =>
      have hfits : n < 2 ^ 64 ∧ Fits (us.foldr Doc.tag d) := hat.fits
      have hlies : Lies D inp (.tag (headOf n) (docItem o (us.foldr Doc.tag d))) s u := hat.lies
      by_cases hn : n = t
      · subst hn
        have hstep := hlies.expectTags_cons ts
        rw [headOf_value hfits.1] at hstep
        rw [hstep]
        exact ih (Nat.lt_of_succ_lt_succ hlen) ⟨hfits.2, hlies.tagged⟩
      · have hvalue : ((headOf n).parsed .tag).value ≠ t := (headOf_value hfits.1).trans_ne hn
        have hhead : rawHead inp s = .ok ((headOf n).parsed .tag) s := hlies.rawHead
        rw [expectTags, Run.bind_of_ok hhead, if_pos (.inr hvalue)]
        intro h
        cases h

/-- A value is not read where a tag of it is missing. -/
theorem untagged_ne {env : Env} {order : StructDef → List Nat} {t : Ty} {v : Val} {n : Nat}
    {rest : Doc} (hv : Proper env noField t v)
    (hd : lowerFieldValue env traits noField (lower env traits order noField t v) t v =
      some (.tag n rest))
    (hat : DocAt o D inp rest s u) {dec : Ty → VCodec.D State Unit} {old : Val} {b : Build State}
    (hrun : decodeFieldValue env (reader env D inp) dec noField t { reader := s, out := old } =
      .ok () b) :
    ¬ Like env t v b.out := by
  induction v using Val.parts generalizing t old b with
  | h v ih =>
    have hpresent : (∀ u, t ≠ .optional u) → False := by
      intro ht
      rw [lowerFieldValue_present ht] at hd
      obtain ⟨x, hx, htags⟩ := Option.map_eq_some_iff.1 hd
      rw [if_neg (show ¬ traits.bulkRange noField t = true from Bool.false_ne_true)] at hx
      have hplain := plain_lower hx
      cases hexpected : traits.expectedTags env noField t with
      | nil =>
        rw [hexpected] at htags
        rw [show x = .tag n rest from htags] at hplain
        exact hplain
      | cons m ts =>
        rw [hexpected] at htags
        obtain ⟨-, rfl⟩ : m = n ∧ ts.foldr Doc.tag x = rest := by
          cases htags
          exact ⟨rfl, rfl⟩
        rw [decodeFieldValue_present ht] at hrun
        obtain ⟨_, _, hrun, -⟩ := Run.bind_eq_ok.1 hrun
        rw [show (reader env D inp).traits = traits from rfl, hexpected, decodeTags_eq_ok,
          if_neg (List.cons_ne_nil m ts)] at hrun
        obtain ⟨w, hw, -⟩ := hrun
        exact expectTags_short (Nat.lt_succ_self _) hplain hat w hw
    cases t with
    | optional t =>
      cases v with
      | some v =>
        rintro ⟨w, hw, hlike⟩
        have hrun : decodeOptional env (reader env D inp)
          (decodeFieldValue env (reader env D inp) dec noField t) t
            { reader := s, out := old } = .ok () b := hrun
        unfold decodeOptional at hrun
        obtain ⟨k, b₁, hpeek, hrun⟩ := Run.bind_eq_ok.1 hrun
        obtain ⟨s₁, hs₁, rfl⟩ := call_eq_ok.1 hpeek
        obtain rfl : s = s₁ := by cases hs₁; rfl
        rw [Run.ite_apply] at hrun
        split at hrun
        · obtain ⟨_, b₂, -, hout⟩ := Run.bind_eq_ok.1 hrun
          rw [setOut_eq_ok] at hout
          rw [← hout] at hw
          cases hw
        · obtain ⟨_, b₂, hout, hrun⟩ := Run.bind_eq_ok.1 hrun
          rw [setOut_eq_ok] at hout
          subst hout
          obtain ⟨b₃, hinner, rfl⟩ := focus_eq_ok.1 hrun
          cases hw
          exact ih v (Val.sizeOf_some v) hv hd hinner hlike
      | null => cases hd
      | _ => exact hv.elim
    | _ => exact (hpresent fun _ h => nomatch h).elim

end

/-! ### A whole input -/

/-- What the schemas, the annotations and the clocks of a program keep to. -/
structure Program (env : Env) : Prop where
  regular : env.Regular
  vetted : Vetted env (format {})
  typed : Typed env

theorem Program.vettedFor {env : Env} (h : Program env) (o : Options) : Vetted env (format o) :=
  ⟨h.vetted.names, h.vetted.keys, h.vetted.integers, h.vetted.transparent⟩

/-- The writer makes these bytes of the value, by way of this document. -/
structure Encoding (env : Env) (o : Options) (t : Ty) (v : Val) (d : Doc) (bs : Bytes) : Prop where
  lowered : lowerTop env traits memberOrder t v = some d
  sound : Sound o 0 d
  distinct : o.deterministic = true → Distinct d
  bytes : bs = selfDescribeBytes env o t ++ wire o d

/-- Construction of a value of the type from a whole input. -/
abbrev construct (env : Env) (D : Options) (inp : Bytes) (fuel : Nat) (t : Ty) (old : Val) :
    EStateM.Result Abort (Build State) Unit :=
  decodeFieldValue env (reader env D inp) (decodeValue env (reader env D inp) fuel noField) noField
    t
    { reader := start inp {}, out := old }

/-- With every bound that is large enough, construction reads the whole input and returns the
value. -/
def Constructs (env : Env) (D : Options) (inp : Bytes) (t : Ty) (old v : Val) : Prop :=
  ∃ n, ∀ fuel, n ≤ fuel → ∃ b, construct env D inp fuel t old = .ok () b ∧
    inp.length ≤ b.reader.pos ∧ Like env t v b.out

/-- The first tag of the document is read as the self-describe tag. -/
def Swallowed (env : Env) (o : Options) (t : Ty) (d : Doc) : Prop :=
  selfDescribeBytes env o t = [] ∧ Described d

section

variable {env : Env} {o D : Options} {t : Ty} {v old : Val} {d : Doc} {bs : Bytes}

theorem selfDescribeBytes_cases (env : Env) (o : Options) (t : Ty) :
    selfDescribeBytes env o t = [] ∨
      selfDescribeBytes env o t = (headOf selfDescribeTag).bytes .tag := by
  unfold selfDescribeBytes
  split
  · exact .inr (headOf_bytes (by decide) _).symm
  · exact .inl rfl

namespace Encoding

theorem fits (ht : Typed env) (h : Encoding env o t v d bs) (hv : Inhabits env t v)
    (hlen : bs.length < 2 ^ 63) : Fits d := by
  have hbytes := congrArg List.length h.bytes
  rw [List.length_append] at hbytes
  exact fits_top o ht hv h.lowered (by omega)

/-- The place behind the self-describe tag, if there is one. -/
theorem place (h : Encoding env o t v d bs) (hfits : Fits d) (hstart : ¬ Swallowed env o t d) :
    bs.drop (start bs {}).pos = (docItem o d).bytes ++ [] ∧ (start bs {}).depth = 0 := by
  rw [List.append_nil]
  have hbytes := h.bytes
  rw [← docItem_bytes hfits] at hbytes
  rcases selfDescribeBytes_cases env o t with hlead | hlead
  · rw [hlead, List.nil_append] at hbytes
    have hin : bs.drop ({} : State).pos = (docItem o d).bytes ++ [] := by
      rw [List.append_nil]; exact hbytes
    have hplain : ¬ Described d := fun hd => hstart ⟨hlead, hd⟩
    rw [start_item hin, if_neg (mt (front_described hfits).1 hplain)]
    exact ⟨hbytes, rfl⟩
  · rw [hlead] at hbytes
    have hin : bs.drop ({} : State).pos =
      (Item.tag (headOf selfDescribeTag) (docItem o d)).bytes ++ [] := by
      rw [List.append_nil]
      exact hbytes
    have hlen : (frontHead (Item.tag (headOf selfDescribeTag) (docItem o d))).length =
        ((headOf selfDescribeTag).bytes .tag).length := (Head.bytes_length _ _).symm
    rw [start_item hin, if_pos ⟨rfl, headOf_value (by decide)⟩, hlen, hbytes, State.advance_pos,
      Nat.zero_add]
    exact ⟨List.drop_left, rfl⟩

/-- What is read whole is accepted. -/
theorem accepts (h : Encoding env o t v d bs) (hs : Suits o D) (ha : Addressable D bs)
    (hfits : Fits d) {fuel : Nat} {b : Build State}
    (hrun : construct env D bs fuel t old = .ok () b) : Accepts D 0 (docItem o d) := by
  have hspan : Spans D bs {} b.reader := (start_tagged {}).spans
    ((spanLaws env ha).passes_decodeFieldValue
      (fun t => (spanLaws env ha).passes_decodeValue fuel noField t)
      noField t _ _ _ hrun)
  have hbytes := h.bytes
  rw [← docItem_bytes hfits] at hbytes
  rcases selfDescribeBytes_cases env o t with hlead | hlead
  · rw [hlead, List.nil_append] at hbytes
    exact accepts_of_spans hs h.sound hfits (r := []) (by rw [List.append_nil]; exact hbytes) hspan
  · rw [hlead] at hbytes
    have htagged : Accepts D 0 (docItem o (.tag selfDescribeTag d)) :=
      accepts_of_spans hs (s := {}) h.sound ⟨by decide, hfits⟩ (r := [])
        (by rw [List.append_nil]; exact hbytes) hspan
    exact (sat_tag.1 htagged).2

theorem lies (h : Encoding env o t v d bs) (hfits : Fits d) (haccepts : Accepts D 0 (docItem o d))
    (hstart : ¬ Swallowed env o t d) :
    DocAt o D bs d (start bs {}) ((start bs {}).advance (docItem o d).bytes.length) := by
  obtain ⟨hin, hdepth⟩ := h.place hfits hstart
  exact ⟨hfits, by rw [hdepth]; exact haccepts, by rw [hdepth]; exact Nat.zero_le _, ⟨[], hin⟩, rfl,
    rfl⟩

end Encoding

/-- Where the first tag of the value is taken for the self-describe tag, the value is not read. -/
theorem swallowed_ne (h : Encoding env o t v d bs) (hv : Proper env noField t v) (hfits : Fits d)
    (haccepts : Accepts D 0 (docItem o d))
    (hstart : Swallowed env o t d) {fuel : Nat} {b : Build State}
    (hrun : construct env D bs fuel t old = .ok () b) : ¬ Like env t v b.out := by
  obtain ⟨hlead, hd⟩ := hstart
  have hbytes := h.bytes
  rw [← docItem_bytes hfits, hlead, List.nil_append] at hbytes
  have hin : bs.drop ({} : State).pos = (docItem o d).bytes ++ [] := by
    rw [List.append_nil]; exact hbytes
  have hlies : DocAt o D bs d {} (({} : State).advance (docItem o d).bytes.length) :=
    ⟨hfits, haccepts, Nat.zero_le _, ⟨[], hin⟩, rfl, rfl⟩
  cases d with
  | tag n d =>
    have hlen : (frontHead (docItem o (.tag n d))).length = ((headOf n).bytes .tag).length :=
      (Head.bytes_length _ _).symm
    have hadvance : start bs {} = ({} : State).advance ((headOf n).bytes .tag).length := by
      rw [start_item hin, if_pos ((front_described hfits).2 hd), hlen]
    rw [construct, hadvance] at hrun
    exact untagged_ne hv h.lowered ⟨hfits.2, hlies.lies.tagged⟩ hrun
  | _ => exact hd.elim

/-- The value of an encoding is read back exactly if the reader accepts the item, takes none of its
tags for another and every part comes back. -/
theorem constructs_iff (hp : Program env) (hs : Suits o D) (htakes : Takes D)
    (ha : Addressable D bs) (h : Encoding env o t v d bs) (hv : Proper env noField t v)
    (hclear : Clear env (format o) noField t v) (hold : Shaped env t old) :
    Constructs env D bs t old v ↔ Legible o D.requireDeterministic d ∧ ¬ Swallowed env o t d ∧
      KeptMember env (format o) everything noField t old v := by
  have hfits := h.fits hp.typed hv.inhabits (ha.length.trans (by decide))
  have hlegible := accepts_iff hs h.sound hfits h.distinct
  by_cases haccepts : Accepts D 0 (docItem o d)
  · rw [← hlegible, and_iff_right haccepts]
    by_cases hstart : Swallowed env o t d
    · refine iff_of_false ?_ fun h => h.1 hstart
      rintro ⟨n, hruns⟩
      obtain ⟨b, hrun, -, hlike⟩ := hruns n le_rfl
      exact swallowed_ne h hv hfits haccepts hstart hrun hlike
    · have hlies := h.lies hfits haccepts hstart
      obtain ⟨n₀, hread⟩ :=
        reads_top (L := docLaws env o ha htakes) hp.regular (hp.vettedFor o) hv hclear hold
        h.lowered
      have hlands := hread _ _ hlies
      rw [and_iff_right hstart]
      constructor
      · rintro ⟨n, hruns⟩
        obtain ⟨b, hrun, -, hlike⟩ := hruns n le_rfl
        exact (hlands.ends n b hrun).2.1 hlike
      · refine fun hkept => ⟨n₀, fun fuel hle => ?_⟩
        obtain ⟨b, hrun⟩ := hlands.returns hkept fuel hle
        obtain ⟨hsame, hlike⟩ := hlands.ends fuel b hrun
        refine ⟨b, hrun, ?_, hlike.2 hkept⟩
        have hplace := (h.place hfits hstart).1
        have hlength := congrArg List.length hplace
        rw [List.length_drop, List.append_nil] at hlength
        have hpos := hsame.1
        rw [State.advance_pos] at hpos
        omega
  · refine iff_of_false ?_ fun h => haccepts (hlegible.2 h.1)
    rintro ⟨n, hruns⟩
    obtain ⟨b, hrun, -, -⟩ := hruns n le_rfl
    exact haccepts (h.accepts hs ha hfits hrun)

/-! ### The entry points -/

/-- The options that a call works with. -/
abbrev readWith (env : Env) (D : Options) (t : Ty) : Options :=
  withTypeDeterminism D (isDeterministicType env t)

/-- With every bound that is large enough, `decode` returns the value. -/
def Decodes (env : Env) (D : Options) (t : Ty) (bs : Bytes) (v : Val) : Prop :=
  ∃ n, ∀ fuel, n ≤ fuel → ∃ w, Cbor.decode env D fuel t bs = .ok w ∧ Like env t v w

/-- With every bound that is large enough, `decode_into` leaves the value. -/
def DecodesInto (env : Env) (D : Options) (t : Ty) (bs : Bytes) (old v : Val) : Prop :=
  ∃ n, ∀ fuel, n ≤ fuel → ∃ w, Cbor.decodeInto env D fuel t bs old = .ok () w ∧ Like env t v w

theorem readWith_errors (D : Options) : (readWith env D t).errors = D.errors := by
  unfold readWith withTypeDeterminism
  split <;> rfl

theorem conclude_ok_iff (herrors : D.errors = .failFast) {b : Build State} {w : Val} :
    conclude D bs b = .ok w ↔ bs.length ≤ b.reader.pos ∧ b.out = w := by
  unfold conclude
  rw [if_neg (by rw [herrors]; exact nofun)]
  unfold finish
  by_cases hpos : b.reader.pos < bs.length
  · rw [if_pos hpos]
    exact iff_of_false nofun fun h => absurd h.1 (by omega)
  · rw [if_neg hpos]
    exact ⟨fun h => ⟨by omega, by cases h; rfl⟩, fun h => congrArg Except.ok h.2⟩

theorem decodeInto_ok_iff (herrors : D.errors = .failFast) {fuel : Nat} {w : Val} :
    Cbor.decodeInto env D fuel t bs old = .ok () w ↔
      ∃ b, construct env (readWith env D t) bs fuel t old = .ok () b ∧ bs.length ≤ b.reader.pos ∧
        b.out = w := by
  have herrors' : (readWith env D t).errors = .failFast := (readWith_errors D).trans herrors
  have hmode : (reader env (readWith env D t) bs).errors = .failFast := herrors'
  unfold Cbor.decodeInto VCodec.decode
  simp only [hmode]
  constructor
  · intro h
    split at h
    · rename_i b hrun
      split at h
      · rename_i hdone
        cases h
        split at hrun
        · rename_i b' hconstruct
          cases hrun
          rw [mapError_eq_ok] at hconstruct
          exact ⟨b, hconstruct, (conclude_ok_iff herrors').1 hdone⟩
        · cases hrun
      · cases h
    · cases h
    · cases h
  · rintro ⟨b, hconstruct, hdone⟩
    have hrun := (mapError_eq_ok (f := Error.finalize)).2 hconstruct
    rw [hrun]
    simp only [(conclude_ok_iff herrors').2 hdone]

theorem decode_ok_iff {fuel : Nat} {w : Val} :
    Cbor.decode env D fuel t bs = .ok w ↔
      Cbor.decodeInto env D fuel t bs (t.zero env) = .ok () w := by
  unfold Cbor.decode Cbor.decodeInto
  simp only
  split
  · split
    · rename_i hdone
      rw [hdone]
      simp
    · rename_i hfail
      rw [hfail]
      simp
  · simp
  · simp

theorem decodesInto_iff (herrors : D.errors = .failFast) :
    DecodesInto env D t bs old v ↔ Constructs env (readWith env D t) bs t old v := by
  refine exists_congr fun n => forall_congr' fun fuel => imp_congr_right fun _ => ?_
  constructor
  · rintro ⟨w, hrun, hlike⟩
    obtain ⟨b, hconstruct, hpos, rfl⟩ := (decodeInto_ok_iff herrors).1 hrun
    exact ⟨b, hconstruct, hpos, hlike⟩
  · rintro ⟨b, hconstruct, hpos, hlike⟩
    exact ⟨b.out, (decodeInto_ok_iff herrors).2 ⟨b, hconstruct, hpos, rfl⟩, hlike⟩

theorem decodes_iff : Decodes env D t bs v ↔ DecodesInto env D t bs (t.zero env) v :=
  exists_congr fun _ => forall_congr' fun _ => imp_congr_right fun _ =>
    exists_congr fun _ => and_congr_left fun _ => decode_ok_iff

end

end VCodec.Cbor
