import VCodec.Cbor.Encode
import VCodec.Cbor.Expect
import VCodec.Cbor.Item
import VCodec.Cbor.Sequence
import VCodec.Core.Enums
import VCodec.Core.Schema
import VCodec.Json.Expect
import VCodec.Json.Landing
import VCodec.Json.Print

/-!
# Enumerators as texts

An enumerator is written as a text, and a text is read as an enumerator. `TextWire` says what a
writer and a reader make of texts, and `returnsText_iff` for which enums the two directions agree
over such a pair. Both formats are one.
-/

namespace VCodec

open D

/-! ### Writing and reading texts -/

section

variable {ω σ S M : Type} (s : Sink ω) (r : Bytes → Reader σ S M) (put : ω → Bytes → ω)
    (pos : σ → Nat)

/-- What is put in the place of a value is a text in its form, and a text is read where it
stands. -/
structure TextWire (form : Bytes → Bytes) (writable readable : Bytes → Prop) : Prop where
  begins : ∃ (w : ω) (u : σ), (∀ x y, put w x = put w y → x = y) ∧ pos u = 0
  writes {t : Bytes} (w : ω) (hlen : t.length < 2 ^ 63) (ht : writable t) :
    s.text noField t w = .ok () (put w (form t))
  refuses {t : Bytes} (w w' : ω) (ht : ¬ writable t) : s.text noField t w ≠ .ok () w'
  starts {t inp rest : Bytes} {u : σ} (hin : inp.drop (pos u) = form t ++ rest) :
    ∃ off u', (r inp).offset u = .ok off u' ∧ pos u' = pos u
  reads {t inp rest : Bytes} {u : σ} (hlen : t.length < 2 ^ 63)
    (hin : inp.drop (pos u) = form t ++ rest) (ht : readable t) :
    ∃ ref u', (r inp).expectText u = .ok ref u' ∧ ref.text = t ∧ pos u' = pos u + (form t).length
  rejects {t inp rest : Bytes} {u u' : σ} {ref : TextRef} (hlen : t.length < 2 ^ 63)
    (hin : inp.drop (pos u) = form t ++ rest) (ht : ¬ readable t) :
      (r inp).expectText u ≠ .ok ref u'

/-- A value that an enumerator offers is written, and what is written is decoded as the value,
wherever it stands. Any other one is refused. -/
def ReturnsText (f : FieldMeta) (e : EnumDef) (v : Int) : Prop :=
  (e.Offers v → ∀ w, ∃ x, encodeEnum s f e v w = .ok () (put w x) ∧
    ∀ (env : Env) (inp rest : Bytes) (b : Build σ), inp.drop (pos b.reader) = x ++ rest →
      ∃ b', decodeEnum env (r inp) f e b = .ok () b' ∧ b'.out = .int v ∧
        pos b'.reader = pos b.reader + x.length) ∧
  (¬ e.Offers v → ∀ w, ∃ err, encodeEnum s f e v w = .error err w ∧ err.code = .unknownEnumerator)

end

/-- The first enumerator of a value is skipped only if all of its value are, and otherwise no other
one before it goes by its name. -/
def EnumDef.Unclashing (e : EnumDef) : Prop :=
  ∀ l en r, e.enumerators = l ++ en :: r → (∀ x ∈ l, x.value ≠ en.value) →
    (en.skipped = true → ∀ x ∈ r, x.value = en.value → x.skipped = true) ∧
      (en.skipped = false → ∀ x ∈ l, x.skipped = false → en.name ∉ x.names)

/-- The names that are written are such texts. -/
def EnumDef.Named (e : EnumDef) (legible : Bytes → Prop) : Prop :=
  ∀ l en r, e.enumerators = l ++ en :: r → (∀ x ∈ l, x.value ≠ en.value) → en.skipped = false →
    legible en.name

variable {f : FieldMeta} {e : EnumDef} {v : Int}

namespace TextWire

variable {ω σ S M : Type} {s : Sink ω} {r : Bytes → Reader σ S M} {put : ω → Bytes → ω}
    {pos : σ → Nat}
  {form : Bytes → Bytes} {writable readable : Bytes → Prop}

/-- Decoding a written name looks the name up. -/
theorem decodeEnum_at (h : TextWire s r put pos form writable readable) {inp rest : Bytes}
    {b : Build σ} {t : Bytes} {en : Enumerator} (hform : (r inp).traits.enumAsInteger f e = false)
    (hlen : t.length < 2 ^ 63) (hin : inp.drop (pos b.reader) = form t ++ rest)
    (ht : readable t) (hfind : e.find t = some en) (env : Env) :
    ∃ b', decodeEnum env (r inp) f e b = .ok () b' ∧ b'.out = .int en.value ∧
      pos b'.reader = pos b.reader + (form t).length := by
  obtain ⟨off, u, hoff, hu⟩ := h.starts hin
  rw [← hu] at hin ⊢
  obtain ⟨ref, u', htext, rfl, hpos⟩ := h.reads hlen hin ht
  refine ⟨{ reader := u', out := .int en.value }, ?_, rfl, hpos⟩
  rw [decodeEnum, Run.bind_of_ok (call_of_ok hoff), hform, if_neg Bool.false_ne_true,
    Run.bind_of_ok (call_of_ok htext), hfind]
  rfl

/-- What a written name is decoded as. -/
theorem find_of_decodeEnum
    (h : TextWire s r put pos form writable readable) {inp rest : Bytes} {b b' : Build σ}
    {t : Bytes} (hform : (r inp).traits.enumAsInteger f e = false)
    (hlen : t.length < 2 ^ 63) (hin : inp.drop (pos b.reader) = form t ++ rest)
    {env : Env} (hrun : decodeEnum env (r inp) f e b = .ok () b') (hout : b'.out = .int v) :
    readable t ∧ (e.find t).map Enumerator.value = some v := by
  obtain ⟨off, u, hoff, hu⟩ := h.starts hin
  rw [← hu] at hin
  rw [decodeEnum, Run.bind_of_ok (call_of_ok hoff), hform, if_neg Bool.false_ne_true] at hrun
  obtain ⟨ref, b₁, htext, hrun⟩ := Run.bind_eq_ok.1 hrun
  obtain ⟨u₁, hread, -⟩ := call_eq_ok.1 htext
  have hreadable : readable t := by
    by_contra hnot
    exact h.rejects hlen hin hnot hread
  obtain ⟨ref', u₂, hread', htext', -⟩ := h.reads hlen hin hreadable
  obtain ⟨rfl, -⟩ := EStateM.Result.ok.inj (hread.symm.trans hread')
  refine ⟨hreadable, ?_⟩
  rw [htext'] at hrun
  cases hfind : e.find t with
  | none =>
    rw [hfind] at hrun
    cases hrun
  | some en =>
    rw [hfind] at hrun
    obtain ⟨-, hstate⟩ := EStateM.Result.ok.inj hrun
    rw [← hstate] at hout
    exact congrArg some (Val.int.inj hout)

/-- Both directions agree about every value exactly if the names do not clash and the written ones
can be written and read. -/
theorem returnsText_iff (h : TextWire s r put pos form writable readable)
    (hsink : s.traits.enumAsInteger f e = false)
    (hreader : ∀ inp, (r inp).traits.enumAsInteger f e = false)
    (hlen : ∀ en ∈ e.enumerators, en.name.length < 2 ^ 63) :
    (∀ v, ReturnsText s r put pos f e v) ↔ e.Unclashing ∧ e.Named fun t => writable t ∧
      readable t := by
  constructor
  · intro hall
    obtain ⟨w, u, hinj, hu⟩ := h.begins
    have hname : ∀ l en rest, e.enumerators = l ++ en :: rest → (∀ x ∈ l, x.value ≠ en.value) →
      en.skipped = false →
        (writable en.name ∧ readable en.name) ∧ ∀ x ∈ l, x.skipped = false → en.name ∉ x.names := by
      intro l en rest he hfirst hskip
      have hmem : en ∈ e.enumerators := by rw [he]; simp
      obtain ⟨x, hwrites, hdecodes⟩ := (hall en.value).1 ⟨en, hmem, rfl, hskip⟩ w
      rw [encodeEnum_of_find hsink rfl (find_of_first he hfirst), hskip,
        if_neg Bool.false_ne_true] at hwrites
      have hwritable : writable en.name := by
        by_contra hnot
        exact h.refuses w _ hnot hwrites
      obtain ⟨-, hput⟩ :=
        EStateM.Result.ok.inj (hwrites.symm.trans (h.writes w (hlen en hmem) hwritable))
      obtain rfl := hinj _ _ hput
      have hin : (form en.name).drop (pos u) = form en.name ++ [] := by
        rw [hu, List.drop_zero, List.append_nil]
      obtain ⟨b', hrun, hval, -⟩ := hdecodes default (form en.name) [] ⟨u, .null⟩ hin
      obtain ⟨hreadable, hfind⟩ :=
        h.find_of_decodeEnum (b := ⟨u, .null⟩) (hreader _) (hlen en hmem) hin hrun hval
      exact ⟨⟨hwritable, hreadable⟩, (find_name_iff he hfirst hskip).1 hfind⟩
    refine ⟨fun l en rest he hfirst =>
      ⟨fun hskip x hx hvalue => ?_, fun hskip => (hname l en rest he hfirst hskip).2⟩,
      fun l en rest he hfirst hskip => (hname l en rest he hfirst hskip).1⟩
    by_contra hkept
    obtain ⟨x', hwrites, -⟩ :=
      (hall en.value).1 ⟨x, by rw [he]; simp [hx], hvalue, by simpa using hkept⟩ w
    rw [encodeEnum_of_find hsink rfl (find_of_first he hfirst), if_pos hskip] at hwrites
    cases hwrites
  · rintro ⟨hclear, hnamed⟩ v
    cases hfind : e.enumerators.find? (fun x => x.value = v) with
    | none =>
      have hno : ¬ e.Offers v := by
        rintro ⟨x, hx, hvalue, -⟩
        have hne := List.find?_eq_none.1 hfind x hx
        exact hne (decide_eq_true hvalue)
      refine ⟨fun hoffers => absurd hoffers hno, fun _ w => ⟨noEnumeratorError e v, ?_, rfl⟩⟩
      rw [encodeEnum_of_find_none hsink rfl hfind]
      rfl
    | some en =>
      obtain ⟨rfl, l, rest, he, hfirst⟩ := exists_first hfind
      obtain ⟨hall, hfree⟩ := hclear l en rest he hfirst
      cases hskip : en.skipped with
      | true =>
        have hno : ¬ e.Offers en.value := by
          rintro ⟨x, hx, hvalue, hkept⟩
          rw [he, List.mem_append, List.mem_cons] at hx
          rcases hx with hx | rfl | hx
          · exact hfirst x hx hvalue
          · rw [hskip] at hkept
            cases hkept
          · rw [hall hskip x hx hvalue] at hkept
            cases hkept
        refine ⟨fun hoffers => absurd hoffers hno, fun _ w => ⟨skippedError e en, ?_, rfl⟩⟩
        rw [encodeEnum_of_find hsink rfl hfind, if_pos hskip]
        rfl
      | false =>
        have hmem : en ∈ e.enumerators := by rw [he]; simp
        obtain ⟨hwritable, hreadable⟩ := hnamed l en rest he hfirst hskip
        obtain ⟨en', hfound, hvalue⟩ :=
          Option.map_eq_some_iff.1 ((find_name_iff he hfirst hskip).2 (hfree hskip))
        refine ⟨fun _ w => ?_, fun hno => absurd ⟨en, hmem, rfl, hskip⟩ hno⟩
        refine ⟨form en.name, ?_, fun env inp tail b hin => ?_⟩
        · rw [encodeEnum_of_find hsink rfl hfind, hskip, if_neg Bool.false_ne_true,
            h.writes w (hlen en hmem) hwritable]
        · rw [← hvalue]
          exact h.decodeEnum_at (hreader inp) (hlen en hmem) hin hreadable hfound env

end TextWire

/-! ### JSON -/

namespace Json

variable {o p : Options} {cc : Charconv} {inp rest t : Bytes} {u u' : State}

/-- Behind an escape a text is legible by itself. -/
theorem valid_behind_escape
    {c : UInt8} {run rest : Bytes} (h : Utf8.Valid (run ++ (putEscape c ++ rest))) :
    Utf8.Valid run ∧ Utf8.Valid rest := by
  have hstrip : ∀ (es : Bytes), (∀ b ∈ es, b.toNat ≤ 0x7F) → es ≠ [] →
    ∀ run : Bytes, Utf8.Valid (run ++ (es ++ rest)) →
      Utf8.Valid run ∧ Utf8.Valid rest := by
    intro es
    induction es with
    | nil => exact fun _ hne => absurd rfl hne
    | cons b es ih =>
      intro hascii _ run hall
      rw [List.cons_append] at hall
      obtain ⟨hrun, hrest⟩ := hall.split_ascii (hascii b List.mem_cons_self)
      by_cases hes : es = []
      · rw [hes, List.nil_append] at hrest
        exact ⟨hrun, hrest⟩
      · exact ⟨hrun, (ih (fun x hx => hascii x (List.mem_cons_of_mem _ hx)) hes [] hrest).2⟩
  refine hstrip (putEscape c) (fun b hb => ascii_putEscape hb) ?_ run h
  unfold putEscape
  split_ifs <;> exact nofun

/-- What is escaped is legible only if the text is. -/
theorem valid_of_escaped (run : Bytes) (h : Utf8.Valid (run ++ escaped t)) :
    Utf8.Valid (run ++ t) := by
  induction t generalizing run with
  | nil => exact h
  | cons c t ih =>
    rw [escaped_cons, escapeByte] at h
    by_cases hc : needsEscape c = true
    · rw [if_pos hc] at h
      obtain ⟨hrun, hrest⟩ := valid_behind_escape h
      have hascii : c.toNat ≤ 0x7F := by
        unfold needsEscape at hc
        rcases of_decide_eq_true hc with hc | rfl | rfl
        · omega
        · decide
        · decide
      exact hrun.append (.ascii_cons hascii (ih [] hrest))
    · rw [if_neg hc, ← List.append_assoc] at h
      have hkeep := ih _ h
      rwa [List.append_assoc, List.singleton_append] at hkeep

/-- A quote is no blank. -/
theorem skipped_quote {x : Bytes} (hin : inp.drop u.pos = 0x22 :: x) : u.skipped inp = u := by
  have hnone : ((0x22 :: x).takeWhile isWs).length = 0 := by
    rw [List.takeWhile_cons_of_neg (by decide)]
    rfl
  rw [State.skipped, hin, hnone]
  rfl

theorem quoted_append (t rest : Bytes) :
    quoted (escaped t) ++ rest = 0x22 :: (escaped t ++ 0x22 :: rest) := by
  simp [quoted]

/-- A written text is read as the string between its quotes. -/
theorem expectText_quoted (hin : inp.drop u.pos = quoted (escaped t) ++ rest) :
    expectText p inp u = parseString p inp u := by
  rw [quoted_append] at hin
  rw [expectText, Run.bind_of_ok (skipWs_run u), skipped_quote hin,
    Run.bind_of_ok (mismatch_at (at?_eq hin))]

theorem textWire (o p : Options) (cc : Charconv) :
    TextWire (sink o cc) (reader p cc) (fun w => (w.before o).append) State.pos
      (fun t => quoted (escaped t))
      (fun t => o.validateUtf8 = true → Utf8.Valid t)
      (fun t => p.validateUtf8 = true → Utf8.Valid t) where
  begins :=
    ⟨startWriter o [], {}, fun _ _ h => List.append_cancel_left (congrArg Writer.out h), rfl⟩
  writes w _ ht := (before_bind o w _).trans (putString_of_valid o _ ht)
  refuses w w' ht hrun := by
    obtain ⟨err, w₁, hfail⟩ := (settles_putString (o := o) (w := w.before o) _).fails ht
    cases hfail.symm.trans ((before_bind o w _).symm.trans hrun)
  starts {t inp rest u} hin := by
    have hskip := skipped_quote (hin.trans (quoted_append t rest))
    refine ⟨u.pos, u, ?_, rfl⟩
    show offset inp u = _
    rw [offset, Run.bind_of_ok (skipWs_run u), hskip]
    rfl
  reads {t inp rest u} _ hin ht := by
    have hread := parseString_spells (o := p) (spells_escaped t) (fun hv => valid_escaped (ht hv))
      (hin.trans (quoted_append t rest))
    refine ⟨_, _, (expectText_quoted hin).trans hread, rfl, ?_⟩
    simp [quoted]
  rejects {t inp rest u u' ref} _ hin ht hrun := by
    obtain ⟨hv, hnot⟩ := Classical.not_imp.1 ht
    obtain ⟨e, hread⟩ :=
      parseString_invalid (spells_escaped t) hv (fun hvalid => hnot (valid_of_escaped [] hvalid))
      (hin.trans (quoted_append t rest))
    cases hread.symm.trans ((expectText_quoted hin).symm.trans hrun)

/-- `encode_enum` to the writer, and `decode_enum` of what it has written. -/
def ReturnsEnum (o p : Options) (cc : Charconv) (f : FieldMeta) (e : EnumDef) (v : Int) : Prop :=
  ReturnsText (sink o cc) (reader p cc) (fun w => (w.before o).append) State.pos f e v

end Json

/-! ### CBOR -/

namespace Cbor

variable {o p : Options} {inp rest t : Bytes} {u u' : State} {w w' : Writer}

theorem text_run (ht : o.validateUtf8 = true → Utf8.Valid t) :
    text o t w = .ok () ((w.bump 1).append (makeHead .text t.length ++ t)) := by
  cases hv : o.validateUtf8 with
  | true => exact (text_eq_ok hv).2 ⟨ht hv, rfl⟩
  | false =>
    rw [text, hv]
    rfl

/-- A written text is read if its bytes pass for one. -/
theorem expectText_written
    (hlen : t.length < 2 ^ 63) (hin : inp.drop u.pos = makeHead .text t.length ++ t ++ rest) :
    ∃ u' : State, u'.pos = u.pos + (makeHead .text t.length ++ t).length ∧
      ((p.validateUtf8 = true → Utf8.Valid t) →
        expectText p inp u = .ok { text := t, borrowed := true, rawLength := u'.pos - u.pos } u') ∧
      (p.validateUtf8 = true → ¬ Utf8.Valid t → ∃ e, expectText p inp u = .error e u') := by
  have hvalue := headOf_value (v := t.length) (by omega)
  have hbytes := headOf_bytes (v := t.length) (by omega) .text
  rw [List.append_assoc, ← hbytes] at hin
  rw [← hbytes]
  have hhead : parseHead ((headOf t.length).bytes .text ++ (t ++ rest)) 0 =
    (headOf t.length).parsed .text :=
    parseHead_head List.drop_zero
  have hadmitted : Admitted p ((headOf t.length).parsed .text) :=
    ⟨Nat.ne_of_gt (Nat.add_pos_left Nat.one_pos _), rfl, rfl, Major.noConfusion,
      fun h => Major.noConfusion h.1, fun _ =>
      ⟨rfl, .inl ((Head.shortest_parsed (m := .text) nofun).2 (headOf_shortest _))⟩⟩
  have hat : HeadAt p inp u.pos [] ((headOf t.length).bytes .text ++ (t ++ rest)) :=
    ⟨hin, fun h => absurd rfl h, by rw [hhead]; exact hadmitted⟩
  have hrun := hat.itemHead (str "text string")
  rw [hhead] at hrun
  have hread := (readString_definite (o := p) (s := u.behind []) hin).2
    ⟨by rw [hvalue, List.length_append]; exact Nat.le_add_right _ _, rfl, rfl⟩
  rw [hvalue, List.take_left] at hread
  refine ⟨(u.behind []).advance (((headOf t.length).bytes .text).length + t.length),
    by rw [List.length_append]; rfl, ?_⟩
  have htext : ¬ ((headOf t.length).parsed .text).mt ≠ .text := not_not.2 rfl
  constructor
  · intro ht
    have hvalid : (if p.validateUtf8 then validateUtf8 t else none) = none := by
      split
      · rename_i hv
        exact validateUtf8_eq_none.2 (ht hv)
      · rfl
    rw [expectText, Run.bind_of_ok hrun, if_neg htext, Run.bind_of_ok hread,
      Run.bind_of_ok (Run.get_apply _), hvalid]
    all_goals rfl
  · intro hv hnot
    cases hbad : validateUtf8 t with
    | none => exact absurd (validateUtf8_eq_none.1 hbad) hnot
    | some bad =>
      rw [expectText, Run.bind_of_ok hrun, if_neg htext, Run.bind_of_ok hread,
        Run.bind_of_ok (Run.get_apply _),
        if_pos hv, hbad]
      exact ⟨_, rfl⟩

theorem textWire (env : Env) (o p : Options) :
    TextWire (sink o) (reader env p) (fun w => (w.bump 1).append) State.pos
      (fun t => makeHead .text t.length ++ t)
      (fun t => o.validateUtf8 = true → Utf8.Valid t)
      (fun t => p.validateUtf8 = true → Utf8.Valid t) where
  begins := ⟨{}, {}, fun _ _ h => congrArg Writer.out h, rfl⟩
  writes w _ ht := text_run ht
  refuses {t} w w' ht hrun := by
    obtain ⟨hv, hnot⟩ := Classical.not_imp.1 ht
    exact hnot ((text_eq_ok hv).1 hrun).1
  starts {t inp rest u} hin := ⟨u.pos, u, rfl, rfl⟩
  reads {t inp rest u} hlen hin ht := by
    obtain ⟨u', hpos, hrun, -⟩ := expectText_written (p := p) hlen hin
    exact ⟨_, u', hrun ht, rfl, hpos⟩
  rejects {t inp rest u u' ref} hlen hin ht hrun := by
    obtain ⟨hv, hnot⟩ := Classical.not_imp.1 ht
    obtain ⟨u₁, -, -, hread⟩ := expectText_written (p := p) hlen hin
    obtain ⟨e, hread⟩ := hread hv hnot
    cases hread.symm.trans hrun

/-- `encode_enum` to the writer, and `decode_enum` of what it has written. -/
def ReturnsEnum (env : Env) (o p : Options) (f : FieldMeta) (e : EnumDef) (v : Int) : Prop :=
  ReturnsText (sink o) (reader env p) (fun w => (w.bump 1).append) State.pos f e v

end Cbor

/-! ### Enums in text form -/

/-- The names that are written are UTF-8 wherever one of the two directions checks it. -/
def EnumDef.Legible (e : EnumDef) (writes reads : Bool) : Prop :=
  writes = true ∨ reads = true → e.Named Utf8.Valid

theorem EnumDef.named_iff (e : EnumDef) (writes reads : Bool) :
    e.Named (fun t => (writes = true → Utf8.Valid t) ∧ (reads = true → Utf8.Valid t)) ↔
      e.Legible writes reads := by
  constructor
  · intro h hchecked l en r he hfirst hskip
    obtain ⟨hwrites, hreads⟩ := h l en r he hfirst hskip
    rcases hchecked with hc | hc
    · exact hwrites hc
    · exact hreads hc
  · intro h l en r he hfirst hskip
    exact ⟨fun hc => h (.inl hc) l en r he hfirst hskip,
      fun hc => h (.inr hc) l en r he hfirst hskip⟩

/-- An enum in text form comes back, value by value, exactly if its names do not clash and those
written are legible. -/
theorem enum_text_iff (f : FieldMeta) (e : EnumDef)
    (hlen : ∀ en ∈ e.enumerators, en.name.length < 2 ^ 63) :
    (Json.traits.enumAsInteger f e = false → ∀ (o p : Json.Options) (cc : Json.Charconv),
      (∀ v, Json.ReturnsEnum o p cc f e v) ↔ e.Unclashing ∧ e.Legible o.validateUtf8 p.validateUtf8)
        ∧
    (Cbor.traits.enumAsInteger f e = false → ∀ (env : Env) (o p : Cbor.Options),
      (∀ v, Cbor.ReturnsEnum env o p f e v) ↔
        e.Unclashing ∧ e.Legible o.validateUtf8 p.validateUtf8) := by
  constructor
  · intro hform o p cc
    rw [← e.named_iff]
    exact (Json.textWire o p cc).returnsText_iff hform (fun _ => hform) hlen
  · intro hform env o p
    rw [← e.named_iff]
    exact (Cbor.textWire env o p).returnsText_iff hform (fun _ => hform) hlen

namespace Schema

/-- Names of enumerators clash by annotations only. -/
theorem unclashing_enumDef
    {c : EnumDecl} (hrename : findAnn Ann.renameAll? c.typeAnnotations = none)
    (hplain : ∀ e ∈ c.enumerators, e.annotations = [])
    (hids : (c.enumerators.map EnumeratorDecl.identifier).Nodup) : (enumDef c).Unclashing := by
  have hinfo : ∀ x ∈ (enumDef c).enumerators, x.skipped = false ∧ x.name = x.identifier ∧
    x.names = [x.identifier] := by
    intro x hx
    obtain ⟨e, he, rfl⟩ := List.mem_map.1 hx
    have hanns := hplain e he
    simp only [enumeratorInfo, Enumerator.names, hanns, hrename]
    exact ⟨rfl, rfl, rfl⟩
  have hmap : (enumDef c).enumerators.map Enumerator.identifier =
    c.enumerators.map EnumeratorDecl.identifier := by
    rw [enumDef, buildEnumSchema, List.map_map]
    rfl
  rw [← hmap] at hids
  intro l en r hsplit _
  rw [hsplit] at hinfo hids
  refine ⟨fun hskip => ?_, fun _ x hx _ => ?_⟩
  · rw [(hinfo en (List.mem_append_right _ List.mem_cons_self)).1] at hskip
    cases hskip
  · obtain ⟨-, -, hnames⟩ := hinfo x (List.mem_append_left _ hx)
    rw [hnames, List.mem_singleton, (hinfo en (List.mem_append_right _ List.mem_cons_self)).2.1]
    rw [List.map_append, List.map_cons, List.nodup_append] at hids
    exact fun heq => hids.2.2 _ (List.mem_map_of_mem hx) _ List.mem_cons_self heq.symm

end Schema

/-- Two enumerators of one value, the second of which is only read, a skipped one, and an alias. -/
def lights : EnumDef where
  name := str "lights"
  underlying := ⟨false, .w8⟩
  enumerators := [{ name := str "red", identifier := str "red", value := 0 },
    { name := str "stop", identifier := str "stop", value := 0, aliases := [str "halt"] },
    { name := str "dark", identifier := str "dark", value := 1, skipped := true },
    { name := str "vert", identifier := str "green", value := 2, aliases := [str "green"] }]

/-- Nothing about the lights is left to check. -/
theorem lights_sound : lights.Unclashing ∧ lights.Named Utf8.Valid := by
  have hfirst : ∀ l en r, lights.enumerators = l ++ en :: r →
      (en.skipped = true → ∀ x ∈ r, x.value = en.value → x.skipped = true) ∧
        (en.skipped = false → (∀ x ∈ l, x.skipped = false → en.name ∉ x.names) ∧
          Utf8.Valid en.name) := by
    intro l en r he
    rcases l with _ | ⟨a, _ | ⟨b, _ | ⟨c, _ | ⟨d, l⟩⟩⟩⟩
    all_goals
      simp only [lights, List.nil_append, List.cons_append, List.cons.injEq] at he
    · obtain ⟨rfl, rfl⟩ := he
      decide
    · obtain ⟨rfl, rfl, rfl⟩ := he
      decide
    · obtain ⟨rfl, rfl, rfl, rfl⟩ := he
      decide
    · obtain ⟨rfl, rfl, rfl, rfl, rfl⟩ := he
      decide
    · exact absurd he.2.2.2.2.symm (by simp)
  exact ⟨fun l en r he _ => ⟨(hfirst l en r he).1, fun hskip => ((hfirst l en r he).2 hskip).1⟩,
    fun l en r he _ hskip => ((hfirst l en r he).2 hskip).2⟩

theorem enum_text_iff_lights :
    (∀ cc v, Json.ReturnsEnum {} {} cc {} lights v) ∧ ∀ v, Cbor.ReturnsEnum default {} {}
      { asText := true } lights v :=
  ⟨fun cc => ((enum_text_iff {} lights (by decide)).1 rfl {} {} cc).2
    ⟨lights_sound.1, fun _ => lights_sound.2⟩,
    ((enum_text_iff { asText := true } lights (by decide)).2 rfl default {} {}).2
      ⟨lights_sound.1, fun _ => lights_sound.2⟩⟩

/-- The second enumerator comes back as the first. -/
theorem enum_text_clash :
    ¬ ∀ (f : FieldMeta) (e : EnumDef), Json.traits.enumAsInteger f e = false →
      ∀ (o p : Json.Options) (cc : Json.Charconv) (v : Int), Json.ReturnsEnum o p cc f e v := by
  intro hall
  have hwire := Json.textWire {} {} Json.noCharconv
  have hclear :=
    ((hwire.returnsText_iff (f := {}) rfl (fun _ => rfl) (by decide)).1
    (hall {} echoes rfl {} {} _)).1
  have hfree := (hclear [_] _ [] rfl (by decide)).2 rfl _ List.mem_cons_self rfl
  exact hfree (by decide)

end VCodec
