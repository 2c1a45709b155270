import VCodec.Core.LandsObject

/-!
# Reading the document of a variant

The first pass finds the discriminator wherever its entry stands, provided that it can read the keys
of the others as text; the second pass starts at the same place.
-/

namespace VCodec

open D

variable {σ S M : Type} {env : Env} {F : Format} {r : Reader σ S M} {L : DocLaws env F r}

/-! ### The first pass -/

/-- The key is read as text. -/
def TextKey (F : Format) (x : DocKey × Doc) : Prop := ∃ k, F.shown x.1 = .text k

theorem not_textKey {x : DocKey × Doc} (h : ¬ TextKey F x) : ∃ i, F.shown x.1 = .int i := by
  cases hx : F.shown x.1 with
  | text k => exact absurd ⟨k, hx⟩ h
  | int i => exact ⟨i, rfl⟩

theorem keyText_at (out : Val) {x : DocKey × Doc} {k : Bytes} {s u : σ} (hk : F.shown x.1 = .text k)
    (hat : L.AtKey x.1 s u) :
    ∃ ref w, (call r.keyText : D σ TextRef) { reader := s, out := out } =
      .ok ref { reader := w, out := out } ∧
      L.Same w u ∧ ref.text = k := by
  obtain ⟨ref, w, hw, hsame, htext, -⟩ := L.key_text hat hk
  exact ⟨ref, w, call_of_ok hw, hsame, htext⟩

theorem skip_at (out : Val) {d : Doc} {s u : σ} (hat : L.At d s u) :
    ∃ w, (call r.skipValue : D σ Unit) { reader := s, out := out } =
      .ok () { reader := w, out := out } ∧ L.Same w u := by
  obtain ⟨w, hw, hsame⟩ := L.skip hat
  exact ⟨w, call_of_ok hw, hsame⟩

theorem consumeRest_at (out : Val) {xs : List (DocKey × Doc)}
    (hxs : ∀ x ∈ xs, TextKey F x) {fuel : Nat} {c : M} {s u : σ} (hfuel : xs.length < fuel)
    (hin : L.InMap c xs s u) :
    ∃ w, consumeRest r fuel c { reader := s, out := out } = .ok () { reader := w, out := out } := by
  induction xs generalizing fuel c s with
  | nil =>
    obtain ⟨fuel, rfl⟩ : ∃ n, fuel = n + 1 := ⟨fuel - 1, by simp at hfuel; omega⟩
    obtain ⟨c', w, hnext, -⟩ := L.key_done hin
    refine ⟨w, ?_⟩
    rw [consumeRest, call_bind hnext]
    rfl
  | cons x xs ih =>
    obtain ⟨fuel, rfl⟩ : ∃ n, fuel = n + 1 := ⟨fuel - 1, by simp at hfuel; omega⟩
    rw [List.forall_mem_cons] at hxs
    obtain ⟨k, hk⟩ := hxs.1
    obtain ⟨c', s₁, t₁, u₁, hnext, hkey, hat, hrest⟩ := L.key_more hin
    obtain ⟨ref, w₁, htext, hs₁, -⟩ := keyText_at out hk hkey
    obtain ⟨w₂, hskip, hs₂⟩ := skip_at out (L.at_same hs₁ hat)
    obtain ⟨w, hw⟩ := ih hxs.2 (Nat.lt_of_succ_lt_succ hfuel) (L.inMap_same hs₂ hrest)
    refine ⟨w, ?_⟩
    rw [consumeRest, call_bind hnext]
    simp only [if_true]
    rw [Run.bind_of_ok htext, Run.bind_of_ok hskip]
    exact hw

theorem consumeRest_ne {xs : List (DocKey × Doc)}
    (hxs : ∃ x ∈ xs, ¬ TextKey F x) {fuel : Nat} {c : M} {s u : σ} {out : Val}
    (hin : L.InMap c xs s u) (b' : Build σ) :
    consumeRest r fuel c { reader := s, out := out } ≠ .ok () b' := by
  induction xs generalizing fuel c s with
  | nil => simp at hxs
  | cons x xs ih =>
    intro hrun
    cases fuel with
    | zero => exact throw_ne_ok hrun
    | succ fuel =>
      obtain ⟨c', s₁, t₁, u₁, hnext, hkey, hat, hrest⟩ := L.key_more hin
      rw [consumeRest, call_bind hnext] at hrun
      simp only [if_true] at hrun
      by_cases hx : TextKey F x
      · obtain ⟨k, hk⟩ := hx
        obtain ⟨ref, w₁, htext, hs₁, -⟩ := keyText_at out hk hkey
        obtain ⟨w₂, hskip, hs₂⟩ := skip_at out (L.at_same hs₁ hat)
        rw [Run.bind_of_ok htext, Run.bind_of_ok hskip] at hrun
        refine ih ?_ (L.inMap_same hs₂ hrest) hrun
        obtain ⟨y, hy, hbad⟩ := hxs
        rcases List.mem_cons.1 hy with rfl | hy
        · exact absurd ⟨k, hk⟩ hbad
        · exact ⟨y, hy, hbad⟩
      · obtain ⟨i, hi⟩ := not_textKey hx
        obtain ⟨ref, _, hcall, -⟩ := Run.bind_eq_ok.1 hrun
        obtain ⟨t, ht, -⟩ := call_eq_ok.1 hcall
        exact L.key_int hkey hi ref t ht

section

variable {f : FieldMeta} {tagKey name : Bytes}

/-- The entry of the discriminator. -/
def tagEntry (f : FieldMeta) (tagKey name : Bytes) : DocKey × Doc := (.text tagKey, .text f name)

/-- One entry of the first pass: the discriminator is read with what follows, another entry is read
over. -/
theorem findTag_step (out : Val) {x : DocKey × Doc} {xs : List (DocKey × Doc)}
    (hx : F.shown x.1 = .text tagKey → x = tagEntry f tagKey name) {k : Bytes}
    (hk : F.shown x.1 = .text k) {c : M} {s u : σ} (hin : L.InMap c (x :: xs) s u) :
    ∃ c' w, L.InMap c' xs w u ∧
      ((x = tagEntry f tagKey name ∧ ∃ off, ∀ fuel,
        findTag r tagKey (fuel + 1) c { reader := s, out := out } = (do
          consumeRest r fuel c'
          return some (off, name) : D σ _) { reader := w, out := out }) ∨
      (k ≠ tagKey ∧ ∀ fuel, findTag r tagKey (fuel + 1) c { reader := s, out := out } =
        findTag r tagKey fuel c' { reader := w, out := out })) := by
  obtain ⟨c', s₁, t₁, u₁, hnext, hkey, hat, hrest⟩ := L.key_more hin
  obtain ⟨off, s₂, hoff, hs₂⟩ := L.offset s₁
  obtain ⟨ref, w₁, htext, hs₁, hreftext⟩ := keyText_at out hk (L.atKey_same hs₂ hkey)
  by_cases htag : k = tagKey
  · subst htag
    obtain rfl := hx hk
    obtain ⟨off', s₃, hoff', hs₃⟩ := L.offset w₁
    obtain ⟨tv, w₂, hread, hs₄, htv, -⟩ := L.text (L.at_same hs₃ (L.at_same hs₁ hat))
    refine ⟨c', w₂, L.inMap_same hs₄ hrest, .inl ⟨rfl, off', fun fuel => ?_⟩⟩
    rw [findTag, call_bind hnext]
    simp only [if_true]
    rw [call_bind hoff, Run.bind_of_ok htext, if_pos hreftext, call_bind hoff', call_bind hread,
      htv]
  · obtain ⟨w₂, hskip, hs₃⟩ := skip_at out (L.at_same hs₁ hat)
    refine ⟨c', w₂, L.inMap_same hs₃ hrest, .inr ⟨htag, fun fuel => ?_⟩⟩
    rw [findTag, call_bind hnext]
    simp only [if_true]
    rw [call_bind hoff, Run.bind_of_ok htext, if_neg (by rwa [hreftext]), Run.bind_of_ok hskip]

/-- The discriminator is found wherever it stands, if all keys are text. -/
theorem findTag_at (out : Val) {xs : List (DocKey × Doc)} (htext : ∀ x ∈ xs, TextKey F x)
    (honly : ∀ x ∈ xs, F.shown x.1 = .text tagKey → x = tagEntry f tagKey name)
    (hmem : tagEntry f tagKey name ∈ xs) {fuel : Nat} {c : M} {s u : σ} (hfuel : xs.length < fuel)
    (hin : L.InMap c xs s u) :
    ∃ off w, findTag r tagKey fuel c { reader := s, out := out } =
      .ok (some (off, name)) { reader := w, out := out } := by
  induction xs generalizing fuel c s with
  | nil => cases hmem
  | cons x xs ih =>
    obtain ⟨fuel, rfl⟩ : ∃ n, fuel = n + 1 := ⟨fuel - 1, by simp at hfuel; omega⟩
    have hlt := Nat.lt_of_succ_lt_succ hfuel
    rw [List.forall_mem_cons] at htext honly
    obtain ⟨k, hk⟩ := htext.1
    obtain ⟨c', w, hrest, ⟨-, off, hstep⟩ | ⟨hne, hstep⟩⟩ := findTag_step out honly.1 hk hin
    · obtain ⟨w', hw'⟩ := consumeRest_at out htext.2 hlt hrest
      refine ⟨off, w', ?_⟩
      rw [hstep, Run.bind_of_ok hw']
      rfl
    · rw [hstep]
      refine ih htext.2 honly.2 ((List.mem_cons.1 hmem).resolve_left ?_) hlt hrest
      rintro rfl
      exact hne (EntryKey.text.inj (hk.symm.trans (L.shown_text tagKey)))

/-- Nothing is found where a key is no text. -/
theorem findTag_ne {xs : List (DocKey × Doc)} (htext : ∃ x ∈ xs, ¬ TextKey F x)
    (honly : ∀ x ∈ xs, F.shown x.1 = .text tagKey → x = tagEntry f tagKey name)
    {fuel : Nat} {c : M} {s u : σ} {out : Val} (hin : L.InMap c xs s u) (tag : Option (Nat × Bytes))
    (b' : Build σ) :
    findTag r tagKey fuel c { reader := s, out := out } ≠ .ok tag b' := by
  induction xs generalizing fuel c s with
  | nil => simp at htext
  | cons x xs ih =>
    intro hrun
    cases fuel with
    | zero => exact throw_ne_ok hrun
    | succ fuel =>
      rw [List.forall_mem_cons] at honly
      by_cases hx : TextKey F x
      · have hlater : ∃ y ∈ xs, ¬ TextKey F y := by
          obtain ⟨y, hy, hbad⟩ := htext
          rcases List.mem_cons.1 hy with rfl | hy
          · exact absurd hx hbad
          · exact ⟨y, hy, hbad⟩
        obtain ⟨k, hk⟩ := hx
        obtain ⟨c', w, hrest, ⟨-, off, hstep⟩ | ⟨-, hstep⟩⟩ := findTag_step out honly.1 hk hin
        · rw [hstep, Run.bind_eq_ok] at hrun
          obtain ⟨_, b₁, hconsume, -⟩ := hrun
          exact consumeRest_ne hlater hrest b₁ hconsume
        · rw [hstep] at hrun
          exact ih hlater honly.2 hrest hrun
      · obtain ⟨i, hi⟩ := not_textKey hx
        obtain ⟨c', s₁, t₁, u₁, hnext, hkey, -, -⟩ := L.key_more hin
        obtain ⟨off, s₂, hoff, hs₂⟩ := L.offset s₁
        rw [findTag, call_bind hnext] at hrun
        simp only [if_true] at hrun
        rw [call_bind hoff, Run.bind_eq_ok] at hrun
        obtain ⟨ref, _, hcall, -⟩ := hrun
        obtain ⟨t, ht, -⟩ := call_eq_ok.1 hcall
        exact L.key_int (L.atKey_same hs₂ hkey) hi ref t ht

/-- Nothing is found where no key is that of the discriminator. -/
theorem findTag_misses {xs : List (DocKey × Doc)} (hnone : ∀ x ∈ xs, F.shown x.1 ≠ .text tagKey)
    {fuel : Nat} {c : M} {s u : σ} {out : Val} (hin : L.InMap c xs s u) {tag : Option (Nat × Bytes)}
    {b' : Build σ} (hrun : findTag r tagKey fuel c { reader := s, out := out } = .ok tag b') :
      tag = none := by
  induction xs generalizing fuel c s with
  | nil =>
    cases fuel with
    | zero => exact absurd hrun throw_ne_ok
    | succ fuel =>
      obtain ⟨c', w, hnext, -⟩ := L.key_done hin
      rw [findTag, call_bind hnext] at hrun
      simp only [Bool.false_eq_true, if_false] at hrun
      exact (pure_eq_ok.1 hrun).1.symm
  | cons x xs ih =>
    cases fuel with
    | zero => exact absurd hrun throw_ne_ok
    | succ fuel =>
      have honly : ∀ y ∈ x :: xs, F.shown y.1 = .text tagKey → y = tagEntry noField tagKey [] :=
        fun y hy h => absurd h (hnone y hy)
      rw [List.forall_mem_cons] at hnone
      by_cases hx : TextKey F x
      · obtain ⟨k, hk⟩ := hx
        obtain ⟨c', w, hrest, ⟨rfl, -⟩ | ⟨-, hstep⟩⟩ :=
          findTag_step out (honly x List.mem_cons_self) hk hin
        · exact absurd (L.shown_text tagKey) hnone.1
        · rw [hstep] at hrun
          exact ih hnone.2 hrest hrun
      · exact absurd hrun (findTag_ne ⟨x, List.mem_cons_self, hx⟩ honly hin tag b')

/-- What is found is the discriminator that is written. -/
theorem findTag_ends {xs : List (DocKey × Doc)} (htext : ∀ x ∈ xs, TextKey F x)
    (honly : ∀ x ∈ xs, F.shown x.1 = .text tagKey → x = tagEntry f tagKey name)
    (hmem : tagEntry f tagKey name ∈ xs) {fuel : Nat} {c : M} {s u : σ} {out : Val}
    (hin : L.InMap c xs s u) {tag : Option (Nat × Bytes)}
    {b' : Build σ} (hrun : findTag r tagKey fuel c { reader := s, out := out } = .ok tag b') :
      ∃ off, tag = some (off, name) := by
  induction xs generalizing fuel c s with
  | nil => cases hmem
  | cons x xs ih =>
    cases fuel with
    | zero => exact absurd hrun throw_ne_ok
    | succ fuel =>
      rw [List.forall_mem_cons] at htext honly
      obtain ⟨k, hk⟩ := htext.1
      obtain ⟨c', w, hrest, ⟨-, off, hstep⟩ | ⟨hne, hstep⟩⟩ := findTag_step out honly.1 hk hin
      · rw [hstep, Run.bind_eq_ok] at hrun
        obtain ⟨_, _, -, hreturn⟩ := hrun
        exact ⟨off, (pure_eq_ok.1 hreturn).1.symm⟩
      · rw [hstep] at hrun
        refine ih htext.2 honly.2 ((List.mem_cons.1 hmem).resolve_left ?_) hrest hrun
        rintro rfl
        exact hne (EntryKey.text.inj (hk.symm.trans (L.shown_text tagKey)))

end

/-! ### The second pass -/

section

variable {alts : List (Bytes × Ty)}
    {tagKey name : Bytes} {i : Nat} {t : Ty} {f : FieldMeta} {old v : Val} {d : Doc}
  {p : Prop} {Q : Val → Prop}

variable {dec : Nat → Ty → D σ Unit} {decStruct : Nat → StructDef → Bytes → D σ Unit}

theorem decodeVariant_at (hf : f.tagKey = some tagKey) {s s₁ s₂ : σ} {off : Nat} {c : M}
    (hoff : r.offset s = .ok off s₁) (hexpect : r.expectMap s₁ = .ok c s₂) (n : Nat) :
    decodeVariant env r n (dec n) (decStruct n) f alts { reader := s, out := old } = (do
      let tag ← findTag r tagKey n c
      let (i, t) ← chooseAlternative env r alts tagKey off tag
      modifyReader (r.restore (r.save s))
      setOut (.variant i (t.zero env))
      decodeAlternative env r n (dec n) (decStruct n) alts tagKey off i t : D σ Unit) { reader := s₂, out := old } := by
  have hsave : (getReader : D σ σ) { reader := s, out := old } =
    .ok s { reader := s, out := old } := rfl
  unfold decodeVariant
  simp only [hf]
  rw [Run.bind_of_ok hsave, call_bind hoff, call_bind hexpect]

/-- The alternative that the discriminator names is read from the saved place. -/
theorem chosen_at (halt : findAlternative name alts 0 = some (i, t))
    {s : σ} (n off tagOff : Nat) (b : Build σ) : (do
      let (i, t) ← chooseAlternative env r alts tagKey off (some (tagOff, name))
      modifyReader (r.restore (r.save s))
      setOut (.variant i (t.zero env))
      decodeAlternative env r n (dec n) (decStruct n) alts tagKey off i t : D σ Unit) b =
    decodeAlternative env r n (dec n) (decStruct n) alts tagKey off i t
      { reader := r.restore (r.save s) b.reader, out := .variant i (t.zero env) } := by
  have hchoose : chooseAlternative env r alts tagKey off (some (tagOff, name)) b =
    .ok (i, t) b := by
    unfold chooseAlternative
    simp only [halt]
    rfl
  rw [Run.bind_of_ok hchoose]
  rfl

/-- The alternative is read from the place at which the first pass began. -/
theorem reads_decodeVariant {f' : FieldMeta}
    {doc : Doc} {xs : List (DocKey × Doc)}
    (hf : f.tagKey = some tagKey) (halt : findAlternative name alts 0 = some (i, t))
    (hmap : ∀ s u, L.At doc s u → ∃ c w, r.expectMap s = .ok c w ∧ L.InMap c xs w u)
    (honly : ∀ x ∈ xs, F.shown x.1 = .text tagKey → x = tagEntry f' tagKey name)
    (hmem : tagEntry f' tagKey name ∈ xs) (h : ∃ n₀, ∀ off s u, L.At doc s u → Lands L n₀
      (fun n => decodeAlternative env r n (dec n) (decStruct n) alts tagKey off i t)
      { reader := s, out := .variant i (t.zero env) } u p Q) :
    Reads L (fun n => decodeVariant env r n (dec n) (decStruct n) f alts) doc old
      ((∀ x ∈ xs, TextKey F x) ∧ p) Q := by
  obtain ⟨n₀, hsecond⟩ := h
  refine ⟨max n₀ (xs.length + 1), fun s u hat => ?_⟩
  obtain ⟨off, s₁, hoff, hs₁⟩ := L.offset s
  obtain ⟨c, s₂, hexpect, hin⟩ := hmap s₁ u (L.at_same hs₁ hat)
  have hback : ∀ b : Build σ, L.At doc (r.restore (r.save s) b.reader) u := fun b =>
    L.at_same (L.restore hat b.reader) hat
  constructor
  · intro n b' hrun
    rw [decodeVariant_at hf hoff hexpect, Run.bind_eq_ok] at hrun
    obtain ⟨tag, b₁, htag, hrun⟩ := hrun
    by_cases htext : ∀ x ∈ xs, TextKey F x
    · obtain ⟨tagOff, rfl⟩ := findTag_ends htext honly hmem hin htag
      rw [chosen_at halt] at hrun
      rw [and_iff_right htext]
      exact (hsecond off _ u (hback b₁)).ends n b' hrun
    · simp only [not_forall, exists_prop] at htext
      exact absurd htag (findTag_ne htext honly hin tag b₁)
  · rintro ⟨htext, hp⟩ n hn
    obtain ⟨tagOff, w, htag⟩ :=
      findTag_at old htext honly hmem (Nat.lt_of_succ_le (le_of_max_le_right hn)) hin
    obtain ⟨b', hrun⟩ :=
      (hsecond off _ u (hback { reader := w, out := old })).returns hp n (le_of_max_le_left hn)
    exact ⟨b', by rw [decodeVariant_at hf hoff hexpect, Run.bind_of_ok htag, chosen_at halt, hrun]⟩

/-- No alternative is read where no discriminator is written. -/
theorem reads_untagged {doc : Doc} {xs : List (DocKey × Doc)} (hf : f.tagKey = some tagKey)
    (hmap : ∀ s u, L.At doc s u → ∃ c w, r.expectMap s = .ok c w ∧ L.InMap c xs w u)
    (hnone : ∀ x ∈ xs, F.shown x.1 ≠ .text tagKey) (hp : ¬ p) :
    Reads L (fun n => decodeVariant env r n (dec n) (decStruct n) f alts) doc old p Q := by
  refine ⟨0, fun s u hat => .of_ne (fun n b' hrun => ?_) hp⟩
  obtain ⟨off, s₁, hoff, hs₁⟩ := L.offset s
  obtain ⟨c, s₂, hexpect, hin⟩ := hmap s₁ u (L.at_same hs₁ hat)
  rw [decodeVariant_at hf hoff hexpect, Run.bind_eq_ok] at hrun
  obtain ⟨tag, b₁, htag, hrun⟩ := hrun
  obtain rfl := findTag_misses hnone hin htag
  obtain ⟨_, _, hchoose, -⟩ := Run.bind_eq_ok.1 hrun
  exact fail_ne_ok hchoose

/-- The payload takes the place of the alternative's. -/
theorem Reads.onAlternative {m : Nat → D σ Unit} {P : Val → Prop} (h : Reads L m d (t.zero env) p P)
    (hput : ∀ w, Q (.variant i w) ↔ P w) :
    Reads L (fun n => D.onAlternative i (m n)) d (.variant i (t.zero env)) p Q := by
  obtain ⟨n₀, h⟩ := h
  exact ⟨n₀, fun s u hat => (h s u hat).focus hput⟩

theorem like_variant {alt : Bytes × Ty} (halt : alts[i]? = some alt) (w : Val) :
    Like env (.variant alts) (.variant i v) (.variant i w) ↔ Like env alt.2 v w := by
  constructor
  · rintro ⟨alt', w', halt', heq, hlike⟩
    cases heq
    rw [halt] at halt'
    cases halt'
    exact hlike
  · exact fun hlike => ⟨alt, w, halt, rfl, hlike⟩

/-- An entry that is no payload is read over. -/
theorem externalLoop_skip (tagKey : Bytes) (out : Val) {x : DocKey × Doc} {xs : List (DocKey × Doc)}
    {k : Bytes} (hk : F.shown x.1 = .text k) (hne : k ≠ variantValueKey) {c : M} {s u : σ}
    (hin : L.InMap c (x :: xs) s u) :
    ∃ c' w, L.InMap c' xs w u ∧ ∀ (dec : D σ Unit) n found,
      externalLoop r dec tagKey (n + 1) c found { reader := s, out := out } =
      externalLoop r dec tagKey n c' found { reader := w, out := out } := by
  obtain ⟨c', s₁, t₁, u₁, hnext, hkey, hat, hrest⟩ := L.key_more hin
  obtain ⟨off, s₂, hoff, hs₂⟩ := L.offset s₁
  obtain ⟨ref, w₁, htext, hs₁, hreftext⟩ := keyText_at out hk (L.atKey_same hs₂ hkey)
  obtain ⟨w₂, hskip, hs₃⟩ := skip_at out (L.at_same hs₁ hat)
  refine ⟨c', w₂, L.inMap_same hs₃ hrest, fun dec n found => ?_⟩
  rw [externalLoop, call_bind hnext]
  simp only [if_true]
  rw [call_bind hoff, Run.bind_of_ok htext, if_neg (by rwa [hreftext]), Run.bind_of_ok hskip]

theorem externalLoop_value
    (tagKey : Bytes) (out : Val) {x : DocKey × Doc} {xs : List (DocKey × Doc)}
    (hk : F.shown x.1 = .text variantValueKey) {c : M} {s u : σ} (hin : L.InMap c (x :: xs) s u) :
    ∃ c' w w', L.At x.2 w w' ∧ L.InMap c' xs w' u ∧ ∀ (dec : D σ Unit) n found,
      externalLoop r dec tagKey (n + 1) c found { reader := s, out := out } = (do
        D.inStep r (·.pushMember variantValueKey) dec
        externalLoop r dec tagKey n c' true : D σ Bool) { reader := w, out := out } := by
  obtain ⟨c', s₁, t₁, u₁, hnext, hkey, hat, hrest⟩ := L.key_more hin
  obtain ⟨off, s₂, hoff, hs₂⟩ := L.offset s₁
  obtain ⟨ref, w₁, htext, hs₁, hreftext⟩ := keyText_at out hk (L.atKey_same hs₂ hkey)
  refine ⟨c', w₁, u₁, L.at_same hs₁ hat, hrest, fun dec n found => ?_⟩
  rw [externalLoop, call_bind hnext]
  simp only [if_true]
  rw [call_bind hoff, Run.bind_of_ok htext, if_pos hreftext]

/-- The key of an entry that is no payload. -/
def Beside (F : Format) (x : DocKey × Doc) : Prop :=
  ∃ k, F.shown x.1 = .text k ∧ k ≠ variantValueKey

variable (tagKey) in
/-- Behind the payload all is read over. -/
theorem externalLoop_rest {xs : List (DocKey × Doc)}
    (hxs : ∀ x ∈ xs, Beside F x) {c : M} {s u : σ} (hin : L.InMap c xs s u) (out : Val) :
    ∃ w, L.Same w u ∧ ∀ (dec : D σ Unit) n found found' b',
      externalLoop r dec tagKey n c found { reader := s, out := out } = .ok found' b' ↔
        xs.length < n ∧ found' = found ∧ b' = { reader := w, out := out } := by
  induction xs generalizing c s with
  | nil =>
    obtain ⟨c', w, hnext, hsame⟩ := L.key_done hin
    refine ⟨w, hsame, fun dec n found found' b' => ?_⟩
    cases n with
    | zero => exact iff_of_false throw_ne_ok fun h => Nat.not_lt_zero _ h.1
    | succ n =>
      rw [externalLoop, call_bind hnext, List.length_nil, and_iff_right (Nat.succ_pos n)]
      simp only [Bool.false_eq_true, if_false, pure_eq_ok]
      exact and_congr eq_comm eq_comm
  | cons x xs ih =>
    rw [List.forall_mem_cons] at hxs
    obtain ⟨k, hk, hne⟩ := hxs.1
    obtain ⟨c', w₁, hrest, hstep⟩ := externalLoop_skip tagKey out hk hne hin
    obtain ⟨w, hsame, hend⟩ := ih hxs.2 hrest
    refine ⟨w, hsame, fun dec n found found' b' => ?_⟩
    cases n with
    | zero => exact iff_of_false throw_ne_ok fun h => Nat.not_lt_zero _ h.1
    | succ n => rw [hstep, hend, List.length_cons, Nat.succ_lt_succ_iff]

variable (tagKey) in
/-- The loop comes to the payload. -/
theorem externalLoop_comes {pre post : List (DocKey × Doc)}
    (hpre : ∀ x ∈ pre, Beside F x) {x : DocKey × Doc} (hx : F.shown x.1 = .text variantValueKey)
    {c : M} {s u : σ} (hin : L.InMap c (pre ++ x :: post) s u) (out : Val) :
    ∃ c' w w', L.At x.2 w w' ∧ L.InMap c' post w' u ∧
      (∀ (dec : D σ Unit) n found found' b', n ≤ pre.length →
        externalLoop r dec tagKey n c found { reader := s, out := out } ≠ .ok found' b') ∧
      ∀ (dec : D σ Unit) n found, externalLoop r dec tagKey (n + pre.length + 1) c found
        { reader := s, out := out } = (do
        D.inStep r (·.pushMember variantValueKey) dec
        externalLoop r dec tagKey n c' true : D σ Bool) { reader := w, out := out } := by
  induction pre generalizing c s with
  | nil =>
    obtain ⟨c', w, w', hat, hrest, hstep⟩ := externalLoop_value tagKey out hx hin
    refine ⟨c', w, w', hat, hrest, fun dec n found found' b' hn => ?_, hstep⟩
    obtain rfl := Nat.le_zero.1 hn
    exact throw_ne_ok
  | cons y pre ih =>
    rw [List.forall_mem_cons] at hpre
    obtain ⟨k, hk, hne⟩ := hpre.1
    obtain ⟨c₁, w₁, hrest, hskip⟩ := externalLoop_skip tagKey out hk hne hin
    obtain ⟨c', w, w', hat, hpost, hshort, hstep⟩ := ih hpre.2 hrest
    refine ⟨c', w, w', hat, hpost, fun dec n found found' b' hn => ?_, fun dec n found => ?_⟩
    · cases n with
      | zero => exact throw_ne_ok
      | succ n =>
        rw [hskip]
        exact hshort dec n found found' b' (Nat.le_of_succ_le_succ hn)
    · rw [List.length_cons, hskip]
      exact hstep dec n found

theorem lands_external {dec : Nat → Ty → D σ Unit} {decStruct : Nat → StructDef → Bytes → D σ Unit}
    {m : Option Nat} {f' : FieldMeta} (htag : internallyTagged env t = none)
    (hname : tagKey ≠ variantValueKey)
    (h : Reads L (fun n => dec n t) d (t.zero env) p (Like env t v))
    (halt : alts[i]? = some (name, t)) :
    ∃ n₀, ∀ off s u, L.At (.map noField m [tagEntry f' tagKey name, (.name variantValueKey, d)]) s u
      → Lands L n₀
      (fun n => decodeAlternative env r n (dec n) (decStruct n) alts tagKey off i t)
      { reader := s, out := .variant i (t.zero env) } u p
        (Like env (.variant alts) (.variant i v)) := by
  have hvalue :
    Reads L (fun n => D.inStep r (·.pushMember variantValueKey) (D.onAlternative i (dec n t))) d
      (.variant i (t.zero env)) p (Like env (.variant alts) (.variant i v)) := by
    obtain ⟨n₀, hvalue⟩ := h.onAlternative (like_variant halt)
    exact ⟨n₀, fun s u hat => (hvalue s u hat).inStep⟩
  obtain ⟨n₀, hvalue⟩ := hvalue
  refine ⟨n₀ + 3, fun off s u hat => ?_⟩
  obtain ⟨c, s₁, hexpect, hin⟩ := L.map hat
  have hperm := L.arrange_perm [tagEntry f' tagKey name, (.name variantValueKey, d)]
  generalize F.arrange [tagEntry f' tagKey name, (.name variantValueKey, d)] = xs at hin hperm
  -- the payload stands before or behind the discriminator
  obtain ⟨pre, post, rfl⟩ :=
    List.append_of_mem (hperm.mem_iff.2 (List.mem_cons_of_mem _ (List.mem_singleton_self _)))
  have hothers : (pre ++ post).Perm [tagEntry f' tagKey name] :=
    ((List.perm_middle.symm.trans hperm).trans (List.Perm.swap _ _ _)).cons_inv
  have hbeside : ∀ x ∈ pre ++ post, Beside F x := by
    intro x hx
    obtain rfl := List.mem_singleton.1 (hothers.mem_iff.1 hx)
    exact ⟨tagKey, L.shown_text tagKey, hname⟩
  have hlength : pre.length + post.length = 1 := by
    rw [← List.length_append, hothers.length_eq, List.length_singleton]
  rw [List.forall_mem_append] at hbeside
  obtain ⟨c', w, w', hat', hpost, hshort, hstep⟩ := externalLoop_comes tagKey hbeside.1
    (L.shown_name variantValueKey) hin (.variant i (t.zero env))
  have hbegin : ∀ n, decodeAlternative env r n (dec n) (decStruct n) alts tagKey off i t
      { reader := s, out := .variant i (t.zero env) } = (do
        let found ← externalLoop r (D.onAlternative i (dec n t)) tagKey n c false
        if found then return
        else
          fail ((((r.error .missingField off).withDetail variantValueKey).withContainerOffset
            off).withContext
            (env.display (.variant alts))) : D σ Unit) { reader := s₁, out := .variant i (t.zero env) } := by
    intro n
    unfold decodeAlternative
    simp only [htag]
    rw [call_bind hexpect]
  constructor
  · intro n b' hrun
    rw [hbegin, Run.bind_eq_ok] at hrun
    obtain ⟨found, b₁, hloop, hrun⟩ := hrun
    by_cases hn : n ≤ pre.length
    · exact absurd hloop (hshort _ n false found b₁ hn)
    · obtain ⟨k, rfl⟩ : ∃ k, n = k + pre.length + 1 := ⟨n - pre.length - 1, by omega⟩
      rw [hstep, Run.bind_eq_ok] at hloop
      obtain ⟨_, b₂, hdec, hloop⟩ := hloop
      obtain ⟨hsame, hlike⟩ := (hvalue w w' hat').ends _ b₂ hdec
      obtain ⟨w₂, hsame₂, hend⟩ :=
        externalLoop_rest tagKey hbeside.2 (L.inMap_same hsame hpost) b₂.out
      obtain ⟨-, rfl, rfl⟩ := (hend _ k true found b₁).1 hloop
      simp only [if_true, pure_eq_ok, true_and] at hrun
      subst hrun
      exact ⟨hsame₂, hlike⟩
  · intro hp n hn
    obtain ⟨k, rfl⟩ : ∃ k, n = k + pre.length + 1 := ⟨n - pre.length - 1, by omega⟩
    obtain ⟨b₂, hdec⟩ := (hvalue w w' hat').returns hp (k + pre.length + 1) (by omega)
    obtain ⟨hsame, -⟩ := (hvalue w w' hat').ends _ b₂ hdec
    obtain ⟨w₂, -, hend⟩ := externalLoop_rest tagKey hbeside.2 (L.inMap_same hsame hpost) b₂.out
    have hloop := (hend (D.onAlternative i (dec (k + pre.length + 1) t)) k true true _).2
      ⟨by omega, rfl, rfl⟩
    refine ⟨{ reader := w₂, out := b₂.out }, ?_⟩
    rw [hbegin, Run.bind_of_ok ((hstep _ k false).trans ((Run.bind_of_ok hdec _).trans hloop))]
    rfl

/-- A struct carries the discriminator among its members. -/
theorem lands_internal {dec : Nat → Ty → D σ Unit} {decStruct : Nat → StructDef → Bytes → D σ Unit}
    {s : StructDef} {doc : Doc} (htag : internallyTagged env t = some s)
    (h : Reads L (fun n => decStruct n s tagKey) doc (t.zero env) p (Like env t v))
    (halt : alts[i]? = some (name, t)) :
    ∃ n₀, ∀ off w u, L.At doc w u → Lands L n₀
      (fun n => decodeAlternative env r n (dec n) (decStruct n) alts tagKey off i t)
      { reader := w, out := .variant i (t.zero env) } u p
        (Like env (.variant alts) (.variant i v)) := by
  obtain ⟨n₀, h⟩ := h.onAlternative (like_variant halt)
  refine ⟨n₀, fun off w u hat => ?_⟩
  unfold decodeAlternative
  simp only [htag]
  exact h w u hat

end

end VCodec
