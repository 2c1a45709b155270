import VCodec.Core.Narrow
import VCodec.Core.Object

/-!
# Reading a document

What a reader does where a document lies ahead of it. `DocLaws` is what a format has to say about
its reader, document by document; construction at the type of the value is then followed step by
step: it ends behind the document, with the value if that is one that comes back, and with another
one or none if it is not.
-/

namespace VCodec

open D

/-! ### Documents as they are read -/

/-- The document without the tags before it. -/
def Doc.bare : Doc → Doc
  | .tag _ d => d.bare
  | d => d

/-- The document begins with no tag. -/
def Doc.Plain : Doc → Prop
  | .tag _ _ | .range _ _ => False
  | _ => True

/-- What a format says about the places at which documents lie. `At d s u` says that `d` lies
between `s` and `u`, and `InSeq` and `InMap` what a cursor has still to give up to the end of its
container. -/
structure DocLaws {σ S M : Type} (env : Env) (F : Format) (r : Reader σ S M) where
  Same : σ → σ → Prop
  At : Doc → σ → σ → Prop
  InSeq : S → List Doc → σ → σ → Prop
  InMap : M → List (DocKey × Doc) → σ → σ → Prop
  AtKey : DocKey → σ → σ → Prop
  traits : r.traits = F.traits
  errors : r.errors = .failFast
  isBytes : ∀ {f t}, F.traits.isBytes f t = true → (∃ rg, t = .byteRange rg) ∨
    contiguousOfUint8 t = true
  same_refl : ∀ s, Same s s
  same_trans : ∀ {s t u}, Same s t → Same t u → Same s u
  at_same : ∀ {d s t u}, Same s t → At d t u → At d s u
  inSeq_same : ∀ {c ds s t u}, Same s t → InSeq c ds t u → InSeq c ds s u
  inMap_same : ∀ {c es s t u}, Same s t → InMap c es t u → InMap c es s u
  atKey_same : ∀ {k s t u}, Same s t → AtKey k t u → AtKey k s u
  offset : ∀ s, ∃ n t, r.offset s = .ok n t ∧ Same t s
  peek : ∀ {d s u}, At d s u → ∃ k t, r.peek s = .ok k t ∧ Same t s ∧ (k = .null ↔ d.bare = .null)
  peek_sint : ∀ {f i s u}, F.traits.timeCodec = true → At (.sint f i) s u →
    ∃ k t, r.peek s = .ok k t ∧ Same t s ∧ (k = .uint ∨ k = .sint)
  peek_real : ∀ {f x s u}, F.traits.timeCodec = true → At (.real f x) s u →
    ∃ k t, r.peek s = .ok k t ∧ Same t s ∧ ¬ (k = .uint ∨ k = .sint)
  null : ∀ {d s u}, At d s u → d.bare = .null → ∃ t, r.expectNull s = .ok () t ∧ Same t u
  boolean : ∀ {x s u}, At (.boolean x) s u → ∃ t, r.expectBoolean s = .ok x t ∧ Same t u
  uint : ∀ {f n s u}, At (.uint f n) s u → ∃ t, r.expectUint f s = .ok n t ∧ Same t u
  sint : ∀ {f i s u}, At (.sint f i) s u → ∃ t, r.expectSint f s = .ok i t ∧ Same t u
  real : ∀ {f x s u y}, At (.real f x) s u → F.real f x = some y → ∃ t, r.expectReal s = .ok y t ∧
    Same t u
  real_none : ∀ {f x s u}, At (.real f x) s u → F.real f x = none → ∀ y t, r.expectReal s ≠ .ok y t
  text : ∀ {f x s u}, At (.text f x) s u →
    ∃ ref t, r.expectText s = .ok ref t ∧ Same t u ∧ ref.text = x ∧ ref.borrowed = F.aliasesText f x
  bytes : ∀ {f x s u}, At (.bytes f x) s u →
    ∃ ref t, r.expectBytes f s = .ok ref t ∧ Same t u ∧ ref.bytes = x ∧
      ref.borrowed = F.aliasesBytes f x
  tags_nil : ∀ s, r.expectTags [] s = .ok () s
  tags_cons : ∀ {n d s u}, At (.tag n d) s u →
    ∃ t, At d t u ∧ ∀ ts, r.expectTags (n :: ts) s = r.expectTags ts t
  tags_none : ∀ {f t d s u}, At d s u → d.Plain → F.traits.expectedTags env f t ≠ [] →
    ∀ w, r.expectTags (F.traits.expectedTags env f t) s ≠ .ok () w
  range : ∀ {f t v s u}, At (.range t v) s u → F.traits.bulkRange f t = true → Proper env f t v →
    ∀ old, Shaped env t old → ∃ w, r.readRange t { reader := s, out := old } =
      .ok true { reader := w, out := v } ∧ Same w u
  no_range : ∀ {d s u}, At d s u → d.Plain →
    ∀ t old, ∃ w, r.readRange t { reader := s, out := old } =
      .ok false { reader := w, out := old } ∧ Same w s
  array : ∀ {f n ds s u}, At (.array f n ds) s u → ∃ c t, r.expectArray s = .ok c t ∧ InSeq c ds t u
  next_more : ∀ {c d ds s u}, InSeq c (d :: ds) s u →
    ∃ c' t t', r.next c s = .ok (true, c') t ∧ At d t t' ∧ InSeq c' ds t' u
  next_done : ∀ {c s u}, InSeq c [] s u → ∃ c' t, r.next c s = .ok (false, c') t ∧ Same t u
  arrange_perm : ∀ es, (F.arrange es).Perm es
  arrange_keys : ∀ es, (F.arrange es).map Prod.fst = es.map Prod.fst → F.arrange es = es
  map : ∀ {f n es s u}, At (.map f n es) s u → ∃ c t, r.expectMap s = .ok c t ∧
    InMap c (F.arrange es) t u
  members : ∀ {n es s u}, At (.members n es) s u → ∃ c t, r.expectMap s = .ok c t ∧ InMap c es t u
  key_more : ∀ {c k d es s u}, InMap c ((k, d) :: es) s u →
    ∃ c' t t' t'', r.nextKey c s = .ok (true, c') t ∧ AtKey k t t' ∧ At d t' t'' ∧ InMap c' es t'' u
  key_done : ∀ {c s u}, InMap c [] s u → ∃ c' t, r.nextKey c s = .ok (false, c') t ∧ Same t u
  key_kind : ∀ {k s u x}, AtKey k s u → F.shown k = .text x → ∃ t, r.keyKind s = .ok .text t ∧
    Same t s
  key_text : ∀ {k s u x}, AtKey k s u → F.shown k = .text x →
    ∃ ref t, r.keyText s = .ok ref t ∧ Same t u ∧ ref.text = x ∧ ref.borrowed = F.aliasesKey k
  key_uint : ∀ {k s u n}, AtKey k s u → F.shown k = .int (Int.ofNat n) →
    (∃ t, r.keyKind s = .ok .uint t ∧ Same t s) ∧ ∃ t, r.keyUint s = .ok n t ∧ Same t u
  key_sint : ∀ {k s u n}, AtKey k s u → F.shown k = .int (Int.negSucc n) →
    (∃ t, r.keyKind s = .ok .sint t ∧ Same t s) ∧ ∃ t, r.keySint s = .ok (Int.negSucc n) t ∧
      Same t u
  key_int : ∀ {k s u i}, AtKey k s u → F.shown k = .int i → ∀ ref t, r.keyText s ≠ .ok ref t
  shown_text : ∀ x, F.shown (.text x) = .text x
  shown_name : ∀ x, F.shown (.name x) = .text x
  shown_intName : ∀ i, F.shown (.intName i) = .int i
  shown_uint : ∀ n, F.shown (.uint n) = .int n ∨ F.shown (.uint n) = .text (decimal n)
  shown_sint : ∀ i, F.shown (.sint i) = .int i ∨ F.shown (.sint i) = .text (decimalInt i)
  order_perm : ∀ d, (F.order d).Perm (List.range d.fields.length)
  skip : ∀ {d s u}, At d s u → ∃ t, r.skipValue s = .ok () t ∧ Same t u
  restore : ∀ {d s u}, At d s u → ∀ t, Same (r.restore (r.save s) t) s

variable {σ S M : Type} {env : Env} {F : Format} {r : Reader σ S M} {L : DocLaws env F r}

/-! ### Runs -/

theorem call_bind {α β : Type} {m : EStateM Error σ α} {k : α → D σ β} {b : Build σ} {a : α} {s : σ}
    (h : m b.reader = .ok a s) : (call m >>= k) b = k a { b with reader := s } :=
  Run.bind_of_ok (call_of_ok h) k

/-- The runs end at `u`, and what they leave satisfies `Q` exactly if `p`; then every bound from
`n₀` on will do. -/
structure Lands (L : DocLaws env F r) (n₀ : Nat) (m : Nat → D σ Unit) (b : Build σ) (u : σ)
    (p : Prop) (Q : Val → Prop) :
    Prop where
  ends : ∀ n b', m n b = .ok () b' → L.Same b'.reader u ∧ (Q b'.out ↔ p)
  returns : p → ∀ n, n₀ ≤ n → ∃ b', m n b = .ok () b'

/-- Where `d` is read into `old`, the run lands behind it. -/
def Reads (L : DocLaws env F r) (m : Nat → D σ Unit) (d : Doc) (old : Val) (p : Prop)
    (Q : Val → Prop) : Prop :=
  ∃ n₀, ∀ s u, L.At d s u → Lands L n₀ m { reader := s, out := old } u p Q

namespace Lands

variable {n₀ : Nat} {m n : Nat → D σ Unit} {b b' b₁ : Build σ} {u : σ} {p q : Prop}
    {P Q : Val → Prop}

theorem of_ok (h : ∀ k, m k b = .ok () b') (hsame : L.Same b'.reader u) (hq : Q b'.out ↔ p) :
    Lands L n₀ m b u p Q where
  ends k b₁ hrun := by
    rw [h] at hrun
    cases hrun
    exact ⟨hsame, hq⟩
  returns _ k _ := ⟨b', h k⟩

theorem of_value {w : σ} (v : Val) (h : ∀ k, m k b = .ok () { reader := w, out := v })
    (hsame : L.Same w u) (hq : Q v ↔ p) :
    Lands L n₀ m b u p Q :=
  of_ok h hsame hq

theorem of_ne (h : ∀ k b', m k b ≠ .ok () b') (hp : ¬ p) : Lands L n₀ m b u p Q where
  ends k b₁ hrun := absurd hrun (h k b₁)
  returns hp' := absurd hp' hp

theorem of_eq (b₁ : Build σ) (h : ∀ k, m k b = n k b₁) (hl : Lands L n₀ n b₁ u p Q) :
    Lands L n₀ m b u p Q where
  ends k b' hrun := hl.ends k b' ((h k).symm.trans hrun)
  returns hp k hle := by
    rw [h]
    exact hl.returns hp k hle

theorem congr (h : Lands L n₀ m b u p Q) (hpq : p ↔ q) : Lands L n₀ m b u q Q where
  ends k b' hrun := ⟨(h.ends k b' hrun).1, (h.ends k b' hrun).2.trans hpq⟩
  returns hq := h.returns (hpq.2 hq)

/-- The bound counts one step more. -/
theorem succ (h : ∀ k, m (k + 1) b = n k b) (hzero : ∀ b', m 0 b ≠ .ok () b')
    (hl : Lands L n₀ n b u p Q) :
    Lands L (n₀ + 1) m b u p Q where
  ends k b' hrun := by
    cases k with
    | zero => exact absurd hrun (hzero b')
    | succ k => exact hl.ends k b' ((h k).symm.trans hrun)
  returns hp k hle := by
    obtain ⟨k, rfl⟩ : ∃ j, k = j + 1 := ⟨k - 1, by omega⟩
    rw [h]
    exact hl.returns hp k (by omega)

theorem mono {n₁ : Nat} (h : Lands L n₀ m b u p Q) (hle : n₀ ≤ n₁) : Lands L n₁ m b u p Q where
  ends := h.ends
  returns hp k hk := h.returns hp k (hle.trans hk)

theorem focus {get : Val → Val} {put : Val → Val → Val}
    (h : Lands L n₀ m { b with out := get b.out } u p P) (hput : ∀ v, Q (put b.out v) ↔ P v) :
      Lands L n₀ (fun k => D.focus get put (m k)) b u p Q where
  ends k b' hrun := by
    obtain ⟨b₁, hm, rfl⟩ := focus_eq_ok.1 hrun
    obtain ⟨hsame, hp⟩ := h.ends k b₁ hm
    exact ⟨hsame, (hput _).trans hp⟩
  returns hp k hle := by
    obtain ⟨b₁, hm⟩ := h.returns hp k hle
    exact ⟨_, focus_eq_ok.2 ⟨b₁, hm, rfl⟩⟩

end Lands

theorem DocLaws.inStep_eq_ok
    (L : DocLaws env F r) {α : Type} {step : Error → Error} {m : D σ α} {b b' : Build σ} {a : α} :
    inStep r step m b = .ok a b' ↔ m b = .ok a b' := by
  have herrors := L.errors
  unfold D.inStep
  rw [← D.mapError_eq_ok (f := step)]
  simp only [herrors]
  cases D.mapError step m b <;> rfl

theorem Lands.inStep {n₀ : Nat} {m : Nat → D σ Unit} {b : Build σ} {u : σ} {p : Prop}
    {Q : Val → Prop} {step : Error → Error} (h : Lands L n₀ m b u p Q) :
      Lands L n₀ (fun k => D.inStep r step (m k)) b u p Q where
  ends k b' hrun := h.ends k b' (L.inStep_eq_ok.1 hrun)
  returns hp k hle := by
    obtain ⟨b', hrun⟩ := h.returns hp k hle
    exact ⟨b', L.inStep_eq_ok.2 hrun⟩

theorem Reads.value {f : FieldMeta} {t : Ty} {d : Doc} {old : Val} {p : Prop} {Q : Val → Prop}
    (body : Nat → D σ Unit) (hbody : ∀ n, decodeValue env r (n + 1) f t = body n)
    (h : Reads L body d old p Q) :
    Reads L (fun n => decodeValue env r n f t) d old p Q := by
  obtain ⟨n₀, h⟩ := h
  refine ⟨n₀ + 1, fun s u hat => .succ (fun k => by rw [hbody]) (fun b' hrun => ?_) (h s u hat)⟩
  unfold decodeValue at hrun
  exact throw_ne_ok hrun

theorem Reads.congr {m : Nat → D σ Unit} {d : Doc} {old : Val} {p q : Prop} {Q : Val → Prop}
    (h : Reads L m d old p Q) (hpq : p ↔ q) : Reads L m d old q Q := by
  obtain ⟨n₀, h⟩ := h
  exact ⟨n₀, fun s u hat => (h s u hat).congr hpq⟩

/-- A run that returns the value whatever it is decoded into. -/
theorem Reads.of_ok {m : Nat → D σ Unit} {d : Doc} {old v : Val} {p : Prop} {Q : Val → Prop}
    (h : ∀ s u, L.At d s u →
      ∃ t, (∀ n, m n { reader := s, out := old } = .ok () { reader := t, out := v }) ∧ L.Same t u)
    (hq : Q v ↔ p) : Reads L m d old p Q := by
  refine ⟨0, fun s u hat => ?_⟩
  obtain ⟨t, hrun, hsame⟩ := h s u hat
  exact .of_ok hrun hsame hq

/-! ### Scalars -/

section

variable {old : Val}

/-- An integer, as the writer gives it to its sink. -/
def intDoc (f : FieldMeta) (k : IntTy) (i : Int) : Doc :=
  if k.signed then .sint f i else .uint f i.toNat

variable (env old) in
theorem decodeInt_at {f : FieldMeta} {k : IntTy} {i : Int} {s u : σ} (hi : k.Holds i)
    (h : L.At (intDoc f k i) s u) :
    ∃ t, decodeInt env r f k { reader := s, out := old } = .ok i { reader := t, out := old } ∧
      L.Same t u := by
  obtain ⟨off, s₁, hoff, hs₁⟩ := L.offset s
  have hat := L.at_same hs₁ h
  rw [intDoc] at hat
  cases hk : k.signed with
  | true =>
    rw [hk, if_pos rfl] at hat
    obtain ⟨t, ht, hsame⟩ := L.sint hat
    exact ⟨t, by rw [decodeInt_of_sint hk hoff ht, if_pos hi], hsame⟩
  | false =>
    rw [hk, if_neg Bool.false_ne_true] at hat
    have hnonneg : 0 ≤ i := (IntTy.min_unsigned hk).symm.trans_le hi.1
    obtain ⟨t, ht, hsame⟩ := L.uint hat
    exact ⟨t, by rw [decodeInt_of_uint hk hoff ht, Int.toNat_of_nonneg hnonneg, if_pos hi], hsame⟩

theorem reads_int (f : FieldMeta) {k : IntTy} {i : Int} (hi : k.Holds i) :
    Reads L (fun n => decodeValue env r n f (.int k)) (intDoc f k i) old True
      (Like env (.int k) (.int i)) := by
  refine .value _ (fun n => by rw [decodeValue])
    (.of_ok (v := .int i) (fun s u hat => ?_) (iff_of_true rfl trivial))
  obtain ⟨t, ht, hsame⟩ := decodeInt_at env old hi hat
  exact ⟨t, fun n => Run.bind_of_ok ht _, hsame⟩

theorem reads_bool (f : FieldMeta) (x : Bool) :
    Reads L (fun n => decodeValue env r n f .bool) (.boolean x) old True
      (Like env .bool (.bool x)) := by
  refine .value _ (fun n => by rw [decodeValue])
    (.of_ok (v := .bool x) (fun s u hat => ?_) (iff_of_true rfl trivial))
  obtain ⟨t, ht, hsame⟩ := L.boolean hat
  exact ⟨t, fun n => call_bind ht, hsame⟩

theorem reads_char (f f' : FieldMeta) (c : UInt8) :
    Reads L (fun n => decodeValue env r n f .char) (.text f' [c]) old True
      (Like env .char (.char c)) := by
  refine .value _ (fun n => by rw [decodeValue])
    (.of_ok (v := .char c) (fun s u hat => ?_) (iff_of_true rfl trivial))
  obtain ⟨off, s₁, hoff, hs₁⟩ := L.offset s
  obtain ⟨ref, t, ht, hsame, htext, -⟩ := L.text (L.at_same hs₁ hat)
  refine ⟨t, fun n => ?_, hsame⟩
  unfold decodeChar
  rw [call_bind hoff, call_bind ht]
  simp only [htext]
  rfl

/-- A float is read as what was written for it, or not at all. -/
theorem reads_expectReal {f : FieldMeta} {x : Double} {p : Prop} {Q : Val → Prop} {g : Double → Val}
    (hsome : ∀ y, F.real f x = some y → (Q (g y) ↔ p)) (hnone : F.real f x = none → ¬ p) :
    Reads L (fun _ => do setOut (g (← call r.expectReal))) (.real f x) old p Q := by
  refine ⟨0, fun s u hat => ?_⟩
  cases hy : F.real f x with
  | some y =>
    obtain ⟨t, ht, hsame⟩ := L.real hat hy
    exact .of_ok (fun _ => call_bind ht) hsame (hsome y hy)
  | none =>
    refine .of_ne (fun _ b' hrun => ?_) (hnone hy)
    obtain ⟨y, _, hcall, -⟩ := Run.bind_eq_ok.1 hrun
    obtain ⟨t, ht, -⟩ := call_eq_ok.1 hcall
    exact L.real_none hat hy y t ht

theorem reads_float (f : FieldMeta) (x : Single) :
    Reads L (fun n => decodeValue env r n f .float) (.real f (doubleOfSingle x)) old
      (Kept env F everything f .float old (.single x)) (Like env .float (.single x)) := by
  refine .value _ (fun n => by rw [decodeValue])
    (reads_expectReal (g := fun y => .single (singleOfDouble y)) ?_ ?_)
  · intro y hy
    show Val.single (singleOfDouble y) = .single x ↔
      (True → ∃ y, F.real f (doubleOfSingle x) = some y ∧ singleOfDouble y = x)
    simp [hy]
  · intro hnone h
    obtain ⟨y, hy, -⟩ := h trivial
    rw [hnone] at hy
    cases hy

theorem reads_double (f : FieldMeta) (x : Double) :
    Reads L (fun n => decodeValue env r n f .double) (.real f x) old
      (Kept env F everything f .double old (.real x)) (Like env .double (.real x)) := by
  refine .value _ (fun n => by rw [decodeValue]) (reads_expectReal (g := .real) ?_ ?_)
  · intro y hy
    show Val.real y = .real x ↔ (True → F.real f x = some x)
    simp [hy]
  · intro hnone h
    have hsome : F.real f x = some x := h trivial
    rw [hnone] at hsome
    cases hsome

/-! ### Strings and bytes -/

theorem reads_string (f : FieldMeta) (view : Bool) (x : Bytes) :
    Reads L (fun n => decodeValue env r n f (.string view)) (.text f x) old
      (Kept env F everything f (.string view) old (.text x))
      (Like env (.string view) (.text x)) := by
  refine .value _ (fun n => by rw [decodeValue]) ⟨0, fun s u hat => ?_⟩
  obtain ⟨off, s₁, hoff, hs₁⟩ := L.offset s
  obtain ⟨ref, t, ht, hsame, htext, hborrowed⟩ := L.text (L.at_same hs₁ hat)
  have hrun : ∀ b', decodeString env r f view { reader := s, out := old } = .ok () b' ↔
      (view = true → F.aliasesText f x = true) ∧ b' = { reader := t, out := .text x } := by
    intro b'
    unfold decodeString
    rw [call_bind hoff, call_bind ht, Run.ite_apply]
    simp only [htext, hborrowed]
    split
    · rename_i hview
      refine iff_of_false fail_ne_ok fun h => hview.2 (h.1 hview.1)
    · rename_i hview
      rw [setOut_eq_ok]
      refine ⟨fun h => ⟨fun hv => ?_, h.symm⟩, fun h => h.2.symm⟩
      by_contra hne
      exact hview ⟨hv, hne⟩
  have hkept : (view = true → F.aliasesText f x = true) ↔
    Kept env F everything f (.string view) old (.text x) :=
    ⟨fun h _ => h, fun h => h trivial⟩
  by_cases hview : view = true → F.aliasesText f x = true
  · exact .of_ok (fun _ => (hrun _).2 ⟨hview, rfl⟩) hsame (iff_of_true rfl (hkept.1 hview))
  · exact .of_ne (fun _ b' h => hview ((hrun b').1 h).1) fun h => hview (hkept.2 h)

theorem reads_enum {f : FieldMeta} {e : EnumDef} {i : Int} {d : Doc} (hi : e.underlying.Holds i)
    (hd : lowerEnum F.traits f e i = some d) :
    Reads L (fun n => decodeValue env r n f (.enum e)) d old
      (Kept env F everything f (.enum e) old (.int i))
      (Like env (.enum e) (.int i)) := by
  have hlike : ∀ j, Like env (.enum e) (.int i) (.int j) ↔ j = i := by
    intro j
    show Val.int j = .int i ↔ j = i
    rw [Val.int.injEq]
  have hkept : Kept env F everything f (.enum e) old (.int i) ↔ KeptEnum F f e i :=
    ⟨fun h => h trivial, fun h _ => h⟩
  refine .value _ (fun n => by rw [decodeValue]) ⟨0, fun s u hat => ?_⟩
  obtain ⟨off, s₁, hoff, hs₁⟩ := L.offset s
  have hat := L.at_same hs₁ hat
  unfold lowerEnum at hd
  unfold decodeEnum
  rw [L.traits]
  cases hmode : F.traits.enumAsInteger f e with
  | true =>
    rw [hmode, if_pos rfl] at hd
    -- a skipped enumerator of the value would have been refused
    cases hskip : e.enumerators.find? (fun en => en.value = i ∧ en.skipped) with
    | some en =>
      rw [hskip] at hd
      cases hd
    | none =>
      rw [hskip] at hd
      cases hd
      obtain ⟨t, ht, hsame⟩ := decodeInt_at env old hi hat
      have hkept' : KeptEnum F f e i ↔ ∃ en ∈ e.enumerators, en.value = i := by
        unfold KeptEnum
        rw [hmode, if_pos rfl]
      rw [hkept, hkept']
      cases hfind : e.enumerators.find? (fun en => en.value = i ∧ ¬ en.skipped) with
      | some en =>
        have hvalue : en.value = i := by
          have hsome := List.find?_some hfind
          simp only [decide_eq_true_eq] at hsome
          exact hsome.1
        refine .of_value (.int en.value) (fun _ => ?_) hsame
          (iff_of_true ((hlike _).2 hvalue) ⟨en, List.mem_of_find?_eq_some hfind, hvalue⟩)
        rw [call_bind hoff, if_pos rfl, Run.bind_of_ok ht, hfind]
        rfl
      | none =>
        refine .of_ne (fun _ b' h => ?_) fun hex => ?_
        · rw [call_bind hoff, if_pos rfl, Run.bind_of_ok ht, hfind] at h
          exact fail_ne_ok h
        · obtain ⟨en, hen, hvalue⟩ := hex
          have hskipped := List.find?_eq_none.1 hskip en hen
          have hfound := List.find?_eq_none.1 hfind en hen
          simp [hvalue] at hskipped hfound
          rw [hskipped] at hfound
          cases hfound
  | false =>
    rw [hmode, if_neg Bool.false_ne_true] at hd
    cases hfind : e.enumerators.find? (fun en => en.value = i) with
    | none =>
      rw [hfind] at hd
      cases hd
    | some en =>
      simp only [hfind] at hd
      split at hd
      · cases hd
      cases hd
      obtain ⟨ref, t, ht, hsame, htext, -⟩ := L.text hat
      have hkept' : KeptEnum F f e i ↔ (e.find en.name).map Enumerator.value = some i := by
        unfold KeptEnum
        rw [hmode, if_neg Bool.false_ne_true, hfind]
        constructor
        · exact fun h => h en rfl
        · rintro h _ ⟨⟩
          exact h
      rw [hkept, hkept']
      cases hname : e.find en.name with
      | some en' =>
        refine .of_value (.int en'.value) (fun _ => ?_) hsame
          ((hlike _).trans Option.some_inj.symm)
        rw [call_bind hoff, if_neg Bool.false_ne_true, call_bind ht, htext, hname]
        rfl
      | none =>
        refine .of_ne (fun _ b' h => ?_) fun h => by cases h
        rw [call_bind hoff, if_neg Bool.false_ne_true, call_bind ht, htext, hname] at h
        exact fail_ne_ok h

variable (env old) in
/-- A byte string is read into any range of bytes that has the length. -/
theorem decodeBytes_at {f : FieldMeta} {t : Ty} {x : Bytes} {s u : σ} (hat : L.At (.bytes f x) s u)
    (hlen : ∀ n ∈ t.byteCount, x.length = n) :
    ∃ w, L.Same w u ∧ ∀ b', decodeBytes env r f t { reader := s, out := old } = .ok () b' ↔
      (t.borrowsBytes = true → F.aliasesBytes f x = true) ∧
        b' = { reader := w, out := bytesVal t x } := by
  obtain ⟨off, s₁, hoff, hs₁⟩ := L.offset s
  obtain ⟨ref, w, hw, hsame, hbytes, hborrowed⟩ := L.bytes (L.at_same hs₁ hat)
  refine ⟨w, hsame, fun b' => ?_⟩
  unfold decodeBytes
  rw [call_bind hoff, call_bind hw, Run.ite_apply]
  simp only [hbytes, hborrowed]
  split
  · rename_i hview
    exact iff_of_false fail_ne_ok fun h => hview.2 (h.1 hview.1)
  · rename_i hview
    rw [setOut_eq_ok]
    refine ⟨fun h => ⟨fun hv => ?_, h.symm⟩, fun h => h.2.symm⟩
    by_contra hne
    exact hview ⟨hv, hne⟩

theorem reads_byteRange (f : FieldMeta) {rg : ByteRange} {x : Bytes}
    (hlen : ∀ n, rg = .array n → x.length = n) :
    Reads L (fun n => decodeValue env r n f (.byteRange rg)) (.bytes f x) old
      (Kept env F everything f (.byteRange rg) old (.bytes x))
      (Like env (.byteRange rg) (.bytes x)) := by
  refine .value _ (fun n => by rw [decodeValue]) ⟨0, fun s u hat => ?_⟩
  have hcount : ∀ n ∈ (Ty.byteRange rg).byteCount, x.length = n := by
    intro n hn
    cases rg with
    | array m =>
      obtain rfl : m = n := Option.mem_some_iff.1 hn
      exact hlen m rfl
    | _ => cases hn
  obtain ⟨w, hsame, hrun⟩ := decodeBytes_at env old (t := .byteRange rg) hat hcount
  have hspan : (Ty.byteRange rg).borrowsBytes = true ↔ rg = .span := by
    cases rg <;> simp [Ty.borrowsBytes]
  have hkept : ((Ty.byteRange rg).borrowsBytes = true → F.aliasesBytes f x = true) ↔
      Kept env F everything f (.byteRange rg) old (.bytes x) := by
    rw [hspan]
    exact ⟨fun h _ => h, fun h => h trivial⟩
  by_cases hview : (Ty.byteRange rg).borrowsBytes = true → F.aliasesBytes f x = true
  · exact .of_ok (fun _ => (hrun _).2 ⟨hview, rfl⟩) hsame (iff_of_true rfl (hkept.1 hview))
  · exact .of_ne (fun _ b' h => hview ((hrun b').1 h).1) fun h => hview (hkept.2 h)

/-- Small integers go into a byte string and come back. -/
theorem asBytes_map {vs : List Val} (h : ∀ v ∈ vs, ∃ i, v = .int i ∧ uint8.Holds i) :
    (asBytes (.seq vs)).map (fun x => Val.int x.toNat) = vs := by
  unfold asBytes
  rw [List.map_map]
  refine (List.map_congr_left fun v hv => ?_).trans (List.map_id vs)
  obtain ⟨i, rfl, hlo, hhi⟩ := h v hv
  have hlo' : (0 : Int) ≤ i := hlo
  have hhi' : i ≤ 255 := hhi
  simp only [Function.comp_apply, id_eq, Val.int.injEq, UInt8.toNat_ofNat']
  omega

theorem reads_bytes {f : FieldMeta} {T t : Ty} {vs : List Val}
    (hT : (∃ n, T = .array n t) ∨ ∃ kind, T = .seq kind t)
    (hbytes : F.traits.isBytes f T = true) (hproper : Proper env f T (.seq vs)) :
    Reads L (fun _ => decodeBytes env r f T) (.bytes f (asBytes (.seq vs))) old True
      (Like env T (.seq vs)) := by
  have hlike := like_refl hproper
  have hcontiguous : contiguousOfUint8 T = true := by
    rcases L.isBytes hbytes with ⟨rg, rfl⟩ | h
    · rcases hT with ⟨n, h⟩ | ⟨kind, h⟩ <;> cases h
    · exact h
  have hvals : ∀ {ts : List Ty}, (∀ u ∈ ts, u = .int uint8) → ProperEach env f ts vs →
      ∀ v ∈ vs, ∃ i, v = .int i ∧ uint8.Holds i := by
    intro ts hts heach v hv
    obtain ⟨hlen, hall⟩ := properEach_iff.1 heach
    obtain ⟨i, hi, rfl⟩ := List.mem_iff_getElem.1 hv
    have hti : ts[i]? = some ts[i] := List.getElem?_eq_getElem (hlen ▸ hi)
    have hint := hall i _ _ hti (List.getElem?_eq_getElem hi)
    rw [hts _ (List.getElem_mem _)] at hint
    cases hw : vs[i] with
    | int j =>
      rw [hw] at hint
      exact ⟨j, rfl, hint⟩
    | _ =>
      rw [hw] at hint
      exact hint.elim
  have hborrows : T.borrowsBytes = false := by rcases hT with ⟨n, rfl⟩ | ⟨kind, rfl⟩ <;> rfl
  have hall : (∀ v ∈ vs, ∃ i, v = .int i ∧ uint8.Holds i) ∧
    ∀ n ∈ T.byteCount, (asBytes (.seq vs)).length = n := by
    rcases hT with ⟨n, rfl⟩ | ⟨kind, rfl⟩
    · have ht : t = .int uint8 := by
        cases t <;> simp [contiguousOfUint8] at hcontiguous
        rw [hcontiguous]
      subst ht
      rw [Proper] at hproper
      refine ⟨hvals (fun u hu => List.eq_of_mem_replicate hu) hproper, fun m hm => ?_⟩
      obtain rfl : n = m := Option.mem_some_iff.1 hm
      have hlen := (properEach_iff.1 hproper).1
      rw [List.length_replicate] at hlen
      rw [← hlen]
      exact List.length_map _
    · have ht : t = .int uint8 := by
        cases kind <;> cases t <;> simp [contiguousOfUint8] at hcontiguous
        rw [hcontiguous]
      subst ht
      exact ⟨hvals (fun u hu => List.eq_of_mem_replicate hu) hproper.1, fun m hm => by cases hm⟩
  have hval : bytesVal T (asBytes (.seq vs)) = .seq vs := by
    rcases hT with ⟨n, rfl⟩ | ⟨kind, rfl⟩ <;> exact congrArg Val.seq (asBytes_map hall.1)
  refine ⟨0, fun s u hat => ?_⟩
  obtain ⟨w, hsame, hrun⟩ := decodeBytes_at env old (t := T) hat hall.2
  refine .of_ok (fun _ => (hrun _).2 ⟨fun h => ?_, rfl⟩) hsame
    (iff_of_true (by rw [hval]; exact hlike) trivial)
  rw [hborrows] at h
  cases h

/-! ### Time points -/

theorem reads_time {f : FieldMeta} {d : Duration} {v : Val} (hv : Proper env f (.time d) v)
    (hcodec : F.traits.timeCodec = true) :
    Reads L (fun n => decodeValue env r n f (.time d)) (lowerTime env f d v) old
      (Kept env F everything f (.time d) old v) (Like env (.time d) v) := by
  have hlike : ∀ w, Like env (.time d) v w ↔ w = v := by
    intro w
    cases v <;> exact Iff.rfl
  have hkept : Kept env F everything f (.time d) old v ↔ KeptTime env F f d v := by
    cases v <;> first | exact hv.elim | exact ⟨fun h => h trivial, fun h _ => h⟩
  refine .value (fun _ => decodeTime env r f d)
    (fun n => by rw [decodeValue, L.traits, if_pos hcodec])
    ⟨0, fun s u hat => ?_⟩
  rw [hkept]
  unfold KeptTime
  unfold decodeTime
  by_cases htag : 0 ∈ f.tags
  · have hdoc : lowerTime env f d v = .text noField (env.formatTime d v) := by
      unfold lowerTime
      rw [if_pos htag]
    rw [hdoc] at hat ⊢
    obtain ⟨off, s₁, hoff, hs₁⟩ := L.offset s
    obtain ⟨ref, w, hw, hsame, htext, -⟩ := L.text (L.at_same hs₁ hat)
    simp only
    cases hparse : env.parseTime (env.formatTime d v) with
    | some i =>
      refine .of_value (env.timeOfSeconds d i) (fun _ => ?_) hsame ?_
      · rw [if_pos htag, call_bind hoff, call_bind hw, htext, hparse]
        rfl
      · rw [hlike]
        simp
    | none =>
      refine .of_ne (fun _ b' h => ?_) (by simp)
      rw [if_pos htag, call_bind hoff, call_bind hw, htext, hparse] at h
      exact fail_ne_ok h
  · have hsint : ∀ i, L.At (.sint noField i) s u → Lands L 0 (fun _ => do
        let kind ← call r.peek
        if kind = .uint ∨ kind = .sint then do
          let i ← call (r.expectSint noField)
          setOut (env.timeOfSeconds d i)
        else do
          let x ← call r.expectReal
          setOut (env.timeOfReal d x)) { reader := s, out := old } u (env.timeOfSeconds d i = v)
            (Like env (.time d) v) := by
      intro i hat
      obtain ⟨kind, s₁, hpeek, hs₁, hkind⟩ := L.peek_sint hcodec hat
      obtain ⟨w, hw, hsame⟩ := L.sint (L.at_same hs₁ hat)
      refine .of_value (env.timeOfSeconds d i) (fun _ => ?_) hsame (hlike _)
      rw [call_bind hpeek, if_pos hkind, call_bind hw]
      rfl
    simp only [if_neg htag]
    unfold lowerTime at hat ⊢
    rw [if_neg htag] at hat
    rw [if_neg htag]
    split at hat
    · rename_i hwhole
      rw [if_pos hwhole]
      exact hsint _ hat
    · rename_i hwhole
      rw [if_neg hwhole]
      cases hunits : wholeSeconds (env.realOfTime d v) with
      | some i =>
        rw [hunits] at hat
        exact hsint i hat
      | none =>
        rw [hunits] at hat
        obtain ⟨kind, s₁, hpeek, hs₁, hkind⟩ := L.peek_real hcodec hat
        have hat := L.at_same hs₁ hat
        simp only
        cases hy : F.real noField (env.realOfTime d v) with
        | some y =>
          obtain ⟨w, hw, hsame⟩ := L.real hat hy
          refine .of_value (env.timeOfReal d y) (fun _ => ?_) hsame ?_
          · rw [call_bind hpeek, if_neg hkind, call_bind hw]
            rfl
          · rw [hlike]
            simp
        | none =>
          refine .of_ne (fun _ b' h => ?_) (by simp)
          rw [call_bind hpeek, if_neg hkind, Run.bind_eq_ok] at h
          obtain ⟨y, _, hcall, -⟩ := h
          obtain ⟨t, ht, -⟩ := call_eq_ok.1 hcall
          exact L.real_none hat hy y t ht

/-! ### Optional-likes -/

variable (env old) in
/-- An empty optional is a null. -/
theorem decodeOptional_null
    {dec : Nat → D σ Unit} {t : Ty} {d : Doc} {s u : σ} (hd : d.bare = .null) (hat : L.At d s u) :
    ∃ w, (∀ n, decodeOptional env r (dec n) t { reader := s, out := old } =
      .ok () { reader := w, out := .null }) ∧
      L.Same w u := by
  obtain ⟨kind, s₁, hpeek, hs₁, hkind⟩ := L.peek hat
  obtain ⟨w, hw, hsame⟩ := L.null (L.at_same hs₁ hat) hd
  refine ⟨w, fun n => ?_, hsame⟩
  unfold decodeOptional
  rw [call_bind hpeek, if_pos (hkind.2 hd), call_bind hw]
  rfl

/-- A present value is told from an empty optional by what is written for it. -/
theorem reads_decodeOptional {dec : Nat → D σ Unit} {t : Ty} {v : Val} {d : Doc} {p q : Prop}
    (h : Reads L dec d (t.zero env) p (Like env t v)) (hq : q ↔ ¬ d.bare = .null ∧ p) :
    Reads L (fun n => decodeOptional env r (dec n) t) d old q
      (Like env (.optional t) (.some v)) := by
  obtain ⟨n₀, h⟩ := h
  refine ⟨n₀, fun s u hat => ?_⟩
  by_cases hd : d.bare = .null
  · obtain ⟨w, hrun, hsame⟩ := decodeOptional_null env old (t := t) hd hat
    refine .of_ok hrun hsame (iff_of_false ?_ fun h => (hq.1 h).1 hd)
    rintro ⟨w', h, -⟩
    cases h
  · obtain ⟨kind, s₁, hpeek, hs₁, hkind⟩ := L.peek hat
    refine ((Lands.of_eq { reader := s₁, out := .some (t.zero env) } (n := fun n => onHeld (dec n))
      (fun n => ?_)
      ((h s₁ u (L.at_same hs₁ hat)).focus (Q := Like env (.optional t) (.some v)) fun w =>
        ?_)).congr ?_)
    · unfold decodeOptional
      rw [call_bind hpeek, if_neg fun h => hd (hkind.1 h)]
      rfl
    · constructor
      · rintro ⟨w', heq, hw⟩
        cases heq
        exact hw
      · exact fun hw => ⟨w, rfl, hw⟩
    · rw [hq, and_iff_right hd]

end

/-! ### Arrays -/

/-- What holds of each element from some bound on holds of all from one bound on. -/
theorem common_bound {α : Type} {R : Nat → α → Prop} (hmono : ∀ {n n' a}, n ≤ n' → R n a → R n' a)
    (as : List α) (h : ∀ a ∈ as, ∃ n, R n a) : ∃ n, ∀ a ∈ as, R n a := by
  induction as with
  | nil => exact ⟨0, fun _ h => nomatch h⟩
  | cons a as ih =>
    obtain ⟨n, hn⟩ := h a (.head _)
    obtain ⟨n', hn'⟩ := ih fun b hb => h b (.tail _ hb)
    refine ⟨max n n', fun b hb => ?_⟩
    rcases List.mem_cons.1 hb with rfl | hb
    · exact hmono (le_max_left _ _) hn
    · exact hmono (le_max_right _ _) (hn' b hb)

section

variable {t : Ty} {kind : SeqKind} {P : Val → Prop} {n₀ : Nat} {dec : Nat → D σ Unit}

theorem sequenceLoop_ends {n : Nat} {vs : List Val} {ds : List Doc}
    (h : List.Forall₂ (fun v d => ∀ s u, L.At d s u →
      Lands L n₀ dec { reader := s, out := t.zero env } u (P v) (Like env t v)) vs ds)
    {fuel i : Nat} {c : S} {b b' : Build σ} {u : σ} (us : List Val) (hin : L.InSeq c ds b.reader u)
    (hout : b.out = .seq us) (hrun : sequenceLoop env r (dec n) kind t fuel c i b = .ok () b') :
    L.Same b'.reader u ∧ ∃ ws, List.Forall₂ (fun v w => Like env t v w ↔ P v) vs ws ∧
      b'.out = .seq (ws.foldl (appendTo env kind t) us) := by
  induction h generalizing fuel i c b us with
  | nil =>
    cases fuel with
    | zero => exact absurd hrun throw_ne_ok
    | succ fuel =>
      obtain ⟨c', s', hnext, hsame⟩ := L.next_done hin
      rw [sequenceLoop, call_bind hnext] at hrun
      simp only [Bool.false_eq_true, if_false, pure_eq_ok] at hrun
      obtain rfl := hrun.2
      exact ⟨hsame, [], .nil, hout⟩
  | @cons v d vs ds hv _ ih =>
    cases fuel with
    | zero => exact absurd hrun throw_ne_ok
    | succ fuel =>
      obtain ⟨c', s', t', hnext, hat, hrest⟩ := L.next_more hin
      rw [sequenceLoop, call_bind hnext] at hrun
      simp only [if_pos, Run.bind_eq_ok, onLocal_eq_ok, getOut_eq_ok, setOut_eq_ok] at hrun
      obtain ⟨w, _, ⟨b₁, hdec, rfl, rfl⟩, _, _, ⟨rfl, rfl⟩, _, _, rfl, hrun⟩ := hrun
      obtain ⟨hsame, hlike⟩ := (hv _ _ hat).ends n b₁ (L.inStep_eq_ok.1 hdec)
      have hitems : b.out.items = us := by rw [hout]; rfl
      obtain ⟨hend, ws, hws, hfinal⟩ :=
        ih (b := { reader := b₁.reader, out := .seq (appendTo env kind t us b₁.out) })
        _ (L.inSeq_same hsame hrest) rfl (by rwa [← hitems])
      exact ⟨hend, b₁.out :: ws, .cons hlike hws, hfinal⟩

theorem sequenceLoop_returns {n : Nat} {vs : List Val} {ds : List Doc} (hn : n₀ ≤ n)
    (h : List.Forall₂ (fun v d => ∀ s u, L.At d s u →
      Lands L n₀ dec { reader := s, out := t.zero env } u (P v) (Like env t v)) vs ds)
        (hP : ∀ v ∈ vs, P v)
    {fuel i : Nat} {c : S} {b : Build σ} {u : σ} (hfuel : ds.length < fuel)
      (hin : L.InSeq c ds b.reader u) :
    ∃ b', sequenceLoop env r (dec n) kind t fuel c i b = .ok () b' := by
  induction h generalizing fuel i c b with
  | nil =>
    obtain ⟨fuel, rfl⟩ : ∃ j, fuel = j + 1 := ⟨fuel - 1, by omega⟩
    obtain ⟨c', s', hnext, -⟩ := L.next_done hin
    refine ⟨{ b with reader := s' }, ?_⟩
    rw [sequenceLoop, call_bind hnext]
    rfl
  | @cons v d vs ds hv _ ih =>
    obtain ⟨fuel, rfl⟩ : ∃ j, fuel = j + 1 := ⟨fuel - 1, by omega⟩
    obtain ⟨c', s', t', hnext, hat, hrest⟩ := L.next_more hin
    have hlands := hv _ _ hat
    obtain ⟨b₁, hdec⟩ := hlands.returns (hP v (.head _)) n hn
    obtain ⟨hsame, -⟩ := hlands.ends n b₁ hdec
    have hlocal : onLocal (t.zero env) (inStep r (·.pushIndex i) (dec n)) { b with reader := s' } =
        .ok b₁.out { b₁ with out := b.out } := onLocal_eq_ok.2 ⟨b₁, L.inStep_eq_ok.2 hdec, rfl, rfl⟩
    obtain ⟨b', hb'⟩ := ih (fun w hw => hP w (.tail _ hw)) (i := i + 1)
      (b := { b₁ with out := .seq (appendTo env kind t b.out.items b₁.out) })
        (Nat.lt_of_succ_lt_succ hfuel)
      (L.inSeq_same hsame hrest)
    refine ⟨b', ?_⟩
    rw [sequenceLoop, call_bind hnext]
    simp only [if_true]
    rw [Run.bind_of_ok hlocal]
    exact hb'

theorem foldl_appendTo (hkind : kind ≠ .set) (ws us : List Val) :
    ws.foldl (appendTo env kind t) us = us ++ ws := by
  induction ws generalizing us with
  | nil => rw [List.foldl_nil, List.append_nil]
  | cons w ws ih =>
    have happend : appendTo env kind t us w = us ++ [w] := by
      cases kind <;> first | rfl | exact absurd rfl hkind
    rw [List.foldl_cons, happend, ih, List.append_assoc, List.singleton_append]

/-- The elements that are like those of the value are those that come back. -/
theorem forall₂_like {vs ws : List Val} (h : List.Forall₂ (fun v w => Like env t v w ↔ P v) vs ws) :
    List.Forall₂ (Like env t) vs ws ↔ ∀ v ∈ vs, P v := by
  induction h with
  | nil => exact iff_of_true .nil fun _ h => nomatch h
  | cons h _ ih => rw [List.forall₂_cons, h, ih, List.forall_mem_cons]

theorem reads_sequence {old : Val} {f : FieldMeta} {m : Option Nat} {vs : List Val} {ds : List Doc}
    (h : List.Forall₂ (fun v d => Reads L dec d (t.zero env) (P v) (Like env t v)) vs ds)
    (hset : kind = .set → SetOf env t vs ∧ ∀ v ∈ vs, P v) :
    Reads L (fun n => decodeSequence env r n (dec n) kind t) (.array f m ds) old (∀ v ∈ vs, P v)
      (Like env (.seq kind t) (.seq vs)) := by
  obtain ⟨hlen, h⟩ := List.forall₂_iff_zip.1 h
  obtain ⟨n₀, h⟩ := common_bound (R := fun n (x : Val × Doc) => ∀ s u, L.At x.2 s u →
    Lands L n dec { reader := s, out := t.zero env } u (P x.1) (Like env t x.1))
    (fun hle h s u hat => (h s u hat).mono hle) _ fun x hx => h hx
  have h := List.forall₂_iff_zip.2 ⟨hlen, fun hx => h _ hx⟩
  refine ⟨max n₀ (ds.length + 1), fun s u hat => ?_⟩
  obtain ⟨c, s', harray, hin⟩ := L.array hat
  have hbegin : ∀ n, decodeSequence env r n (dec n) kind t { reader := s, out := old } =
      sequenceLoop env r (dec n) kind t n c 0 { reader := s', out := .seq [] } := by
    intro n
    unfold decodeSequence
    rw [call_bind harray]
    rfl
  constructor
  · intro n b' hrun
    rw [hbegin] at hrun
    obtain ⟨hsame, ws, hws, hout⟩ := sequenceLoop_ends h [] hin rfl hrun
    refine ⟨hsame, ?_⟩
    have hlike : Like env (.seq kind t) (.seq vs) b'.out ↔
        List.Forall₂ (Like env t) vs (ws.foldl (appendTo env kind t) []) := by
      rw [hout, Like, ← likeEach_replicate]
      constructor
      · rintro ⟨ws', heq, hws'⟩
        cases heq
        exact hws'
      · exact fun h => ⟨_, rfl, h⟩
    rw [hlike]
    by_cases hkind : kind = .set
    · obtain ⟨hof, hall⟩ := hset hkind
      have hinsert : appendTo env kind t = fun us w => env.insert t w us := by
        rw [hkind]
        rfl
      rw [hinsert]
      refine iff_of_true
        (likeEach_replicate.1 (hof ws (likeEach_replicate.2 ((forall₂_like hws).2 hall)))) hall
    · rw [foldl_appendTo hkind, List.nil_append]
      exact forall₂_like hws
  · intro hP n hn
    rw [hbegin]
    exact sequenceLoop_returns (by omega) h hP (by omega) hin

end

theorem item_setItem (i j : Nat) (v w : Val) :
    (Val.setItem i v w).item j = if i = j ∧ i < v.items.length then w else v.item j := by
  show (v.items.set i w).getD j .null = _
  rw [List.getD_eq_getElem?_getD, List.getElem?_set]
  unfold Val.item
  rw [List.getD_eq_getElem?_getD]
  by_cases hij : i = j
  · subst hij
    rw [if_pos rfl]
    by_cases hlt : i < v.items.length
    · rw [if_pos hlt, if_pos ⟨rfl, hlt⟩]
      rfl
    · rw [if_neg hlt, if_neg fun h => hlt h.2, List.getElem?_eq_none (not_lt.1 hlt)]
  · rw [if_neg hij, if_neg fun h => hij h.1]

theorem length_setItem (i : Nat) (v w : Val) :
    (Val.setItem i v w).items.length = v.items.length := List.length_set

section

variable {P : Nat → Prop} {n₀ : Nat} {dec : Nat → Ty → D σ Unit} {all : List Ty} {vs : List Val}
    {ds : List Doc} {old : Val}

/-- The elements lie ahead in order, and each is read into its own place. -/
abbrev ElementsLand (L : DocLaws env F r) (n₀ : Nat) (dec : Nat → Ty → D σ Unit) (P : Nat → Prop)
    (all : List Ty) (vs : List Val) (ds : List Doc) (old : Val) : Prop :=
  ∀ i t v d, all[i]? = some t → vs[i]? = some v → ds[i]? = some d → ∀ s u, L.At d s u →
    Lands L n₀ (fun n => dec n t) { reader := s, out := old.item i } u (P i) (Like env t v)

theorem DocLaws.onItem_eq_ok
    (L : DocLaws env F r) {i : Nat} {step : Error → Error} {m : D σ Unit} {b b' : Build σ} :
    onItem i (inStep r step m) b = .ok () b' ↔ ∃ b₁, m { b with out := b.out.item i } = .ok () b₁ ∧
      b' = { b₁ with out := Val.setItem i b.out b₁.out } := by
  unfold onItem
  rw [focus_eq_ok]
  exact exists_congr fun b₁ => and_congr_left fun _ => L.inStep_eq_ok

theorem elementsLoop_ends (hvs : vs.length = all.length) (hds : ds.length = all.length)
    (h : ElementsLand L n₀ dec P all vs ds old) {off m n i : Nat} {ts : List Ty}
    (hts : all.drop i = ts) {c c' : S} {b b' : Build σ} {u : σ}
    (hin : L.InSeq c (ds.drop i) b.reader u)
    (hold : ∀ j, i ≤ j → b.out.item j = old.item j) (hlen : b.out.items.length = all.length)
    (hrun : elementsLoop r (dec n) off m ts i c b = .ok c' b') :
    L.InSeq c' [] b'.reader u ∧ b'.out.items.length = all.length ∧
      (∀ j, j < i → b'.out.item j = b.out.item j) ∧
      (∀ j t v, i ≤ j → all[j]? = some t → vs[j]? = some v → (Like env t v (b'.out.item j) ↔ P j)) ∧
      (b'.out = b.out ∨ ∃ ws, b'.out = .seq ws) := by
  induction ts generalizing i c b with
  | nil =>
    simp only [elementsLoop, pure_eq_ok] at hrun
    obtain ⟨rfl, rfl⟩ := hrun
    have hle : all.length ≤ i := List.drop_eq_nil_iff.1 hts
    rw [List.drop_eq_nil_of_le (hds ▸ hle)] at hin
    refine ⟨hin, hlen, fun _ _ => rfl, fun j t v hij ht => ?_, .inl rfl⟩
    rw [List.getElem?_eq_none (hle.trans hij)] at ht
    cases ht
  | cons t ts ih =>
    have hi : i < all.length := by
      by_contra hge
      rw [List.drop_eq_nil_of_le (not_lt.1 hge)] at hts
      cases hts
    have hcons := List.drop_eq_getElem_cons hi
    rw [hts] at hcons
    obtain ⟨rfl, hts'⟩ := List.cons.inj hcons
    rw [List.drop_eq_getElem_cons (hds ▸ hi)] at hin
    obtain ⟨c₁, s₁, t₁, hnext, hat, hrest⟩ := L.next_more hin
    rw [elementsLoop, call_bind hnext] at hrun
    simp only [if_true, Run.bind_eq_ok, L.onItem_eq_ok] at hrun
    obtain ⟨_, _, ⟨b₁, hdec, rfl⟩, hrun⟩ := hrun
    rw [hold i le_rfl] at hdec
    have hget : all[i]? = some all[i] := List.getElem?_eq_getElem hi
    obtain ⟨hsame, hlike⟩ :=
      (h i _ _ _ hget (List.getElem?_eq_getElem (hvs ▸ hi)) (List.getElem?_eq_getElem (hds ▸ hi))
      s₁ t₁ hat).ends n b₁ hdec
    obtain ⟨hend, hlength, hbefore, hafter, hseq⟩ :=
      ih (b := { b₁ with out := Val.setItem i b.out b₁.out }) hts'.symm
      (L.inSeq_same hsame hrest)
      (fun j hij => by
        rw [item_setItem, if_neg fun h => absurd h.1 (by omega)]
        exact hold j (by omega))
      ((length_setItem _ _ _).trans hlen) hrun
    refine ⟨hend, hlength, fun j hij => ?_, fun j t v hij ht hv => ?_, .inr ?_⟩
    · rw [hbefore j (by omega), item_setItem, if_neg fun h => absurd h.1 (by omega)]
    · rcases Nat.eq_or_lt_of_le hij with rfl | hlt
      · rw [hget] at ht
        rw [List.getElem?_eq_getElem (hvs ▸ hi)] at hv
        cases ht
        cases hv
        rw [hbefore i (by omega), item_setItem, if_pos ⟨rfl, hlen ▸ hi⟩]
        exact hlike
      · exact hafter j t v hlt ht hv
    · rcases hseq with h | h
      · exact ⟨_, h⟩
      · exact h

theorem elementsLoop_returns (hvs : vs.length = all.length) (hds : ds.length = all.length)
    (h : ElementsLand L n₀ dec P all vs ds old) (off : Nat) {m n i : Nat} (hn : n₀ ≤ n)
    (hP : ∀ i, i < all.length → P i) {ts : List Ty} (hts : all.drop i = ts) {c : S} {b : Build σ}
    {u : σ} (hin : L.InSeq c (ds.drop i) b.reader u)
    (hold : ∀ j, i ≤ j → b.out.item j = old.item j) :
    ∃ c' b', elementsLoop r (dec n) off m ts i c b = .ok c' b' := by
  induction ts generalizing i c b with
  | nil => exact ⟨c, b, rfl⟩
  | cons t ts ih =>
    have hi : i < all.length := by
      by_contra hge
      rw [List.drop_eq_nil_of_le (not_lt.1 hge)] at hts
      cases hts
    have hcons := List.drop_eq_getElem_cons hi
    rw [hts] at hcons
    obtain ⟨rfl, hts'⟩ := List.cons.inj hcons
    rw [List.drop_eq_getElem_cons (hds ▸ hi)] at hin
    obtain ⟨c₁, s₁, t₁, hnext, hat, hrest⟩ := L.next_more hin
    have hlands := h i _ _ _ (List.getElem?_eq_getElem hi) (List.getElem?_eq_getElem (hvs ▸ hi))
      (List.getElem?_eq_getElem (hds ▸ hi)) s₁ t₁ hat
    obtain ⟨b₁, hdec⟩ := hlands.returns (hP i hi) n hn
    obtain ⟨hsame, -⟩ := hlands.ends n b₁ hdec
    obtain ⟨c', b', hb'⟩ :=
      ih (i := i + 1) (b := { b₁ with out := Val.setItem i b.out b₁.out }) hts'.symm
      (L.inSeq_same hsame hrest) fun j hij => by
        rw [item_setItem, if_neg fun h => absurd h.1 (by omega)]
        exact hold j (by omega)
    refine ⟨c', b', ?_⟩
    rw [elementsLoop, call_bind hnext]
    simp only [if_true]
    rw [Run.bind_of_ok (L.onItem_eq_ok.2 ⟨b₁, by rw [hold i le_rfl]; exact hdec, rfl⟩)]
    exact hb'

variable (dec) in
/-- A tuple or an array of a fixed length. -/
theorem reads_elements {T : Ty} {f : FieldMeta} {m : Option Nat} (hvs : vs.length = all.length)
    (hds : ds.length = all.length) (hold : Shaped env T old) (hslots : T.slots env = some all)
    (hlike : ∀ w, Like env T (.seq vs) w ↔ ∃ ws, w = .seq ws ∧ LikeEach env all vs ws)
    (h : ∀ i t v d, all[i]? = some t → vs[i]? = some v → ds[i]? = some d →
      Reads L (fun n => dec n t) d (old.item i) (P i) (Like env t v)) :
    Reads L (fun n => decodeElements r n (dec n) all) (.array f m ds) old
      (∀ i, i < all.length → P i)
      (Like env T (.seq vs)) := by
  -- one bound for all elements
  have hbound : ∃ n₀, ElementsLand L n₀ dec P all vs ds old := by
    obtain ⟨n₀, hn₀⟩ :=
      common_bound (R := fun n i => ∀ t v d, all[i]? = some t → vs[i]? = some v → ds[i]? = some d →
      ∀ s u, L.At d s u → Lands L n (fun n => dec n t) { reader := s, out := old.item i } u (P i)
        (Like env t v))
      (fun hle h t v d ht hv hd s u hat => (h t v d ht hv hd s u hat).mono hle)
        (List.range all.length)
      fun i hi => by
        have hi : i < all.length := List.mem_range.1 hi
        have hiv : i < vs.length := hvs ▸ hi
        have hid : i < ds.length := hds ▸ hi
        obtain ⟨n, hn⟩ :=
          h i all[i] vs[i] ds[i] (List.getElem?_eq_getElem hi) (List.getElem?_eq_getElem hiv)
          (List.getElem?_eq_getElem hid)
        refine ⟨n, fun t v d ht hv hd => ?_⟩
        rw [List.getElem?_eq_getElem hi] at ht
        rw [List.getElem?_eq_getElem hiv] at hv
        rw [List.getElem?_eq_getElem hid] at hd
        cases ht
        cases hv
        cases hd
        exact hn
    exact ⟨n₀, fun i t v d ht => hn₀ i (List.mem_range.2 (List.getElem?_eq_some_iff.1 ht).1) t v d
      ht⟩
  obtain ⟨n₀, hall⟩ := hbound
  refine ⟨n₀, fun s u hat => ?_⟩
  obtain ⟨off, s₁, hoff, hs₁⟩ := L.offset s
  obtain ⟨c, s₂, harray, hin⟩ := L.array (L.at_same hs₁ hat)
  have hlen := hold.length hslots
  constructor
  · intro n b' hrun
    unfold decodeElements at hrun
    rw [call_bind hoff, call_bind harray, Run.bind_eq_ok] at hrun
    obtain ⟨c', b₁, hloop, hrun⟩ := hrun
    obtain ⟨hend, hlength, -, hafter, hseq⟩ :=
      elementsLoop_ends hvs hds hall (i := 0) List.drop_zero
      (by rwa [List.drop_zero]) (fun _ _ => rfl) hlen hloop
    obtain ⟨c'', s₃, hnext, hsame⟩ := L.next_done hend
    rw [call_bind hnext] at hrun
    simp only [Bool.false_eq_true, if_false, pure_eq_ok, true_and] at hrun
    subst hrun
    refine ⟨hsame, ?_⟩
    obtain ⟨ws, hws⟩ : ∃ ws, b₁.out = .seq ws := by
      rcases hseq with h | h
      · cases hold with
        | parts _ _ _ => exact ⟨_, h⟩
        | whole ht =>
          rw [hslots] at ht
          cases ht
      · exact h
    have hitem : ∀ i w, ws[i]? = some w → b₁.out.item i = w := by
      intro i w hw
      rw [hws]
      show ws.getD i .null = w
      rw [List.getD_eq_getElem?_getD, hw]
      rfl
    have hwslen : ws.length = vs.length := by
      rw [hvs, ← hlength, hws]
      rfl
    have heach : Like env T (.seq vs) b₁.out ↔ LikeEach env all vs ws := by
      rw [hlike, hws]
      constructor
      · rintro ⟨ws', heq, h⟩
        cases heq
        exact h
      · exact fun h => ⟨ws, rfl, h⟩
    rw [heach, likeEach_iff hvs]
    constructor
    · rintro ⟨-, h⟩ i hi
      have hw : i < ws.length := by omega
      refine (hafter i _ _ (Nat.zero_le _) (List.getElem?_eq_getElem hi)
        (List.getElem?_eq_getElem (hvs ▸ hi))).1 ?_
      rw [hitem i _ (List.getElem?_eq_getElem hw)]
      exact h i _ _ _ (List.getElem?_eq_getElem hi) (List.getElem?_eq_getElem _)
        (List.getElem?_eq_getElem hw)
    · refine fun hP => ⟨hwslen, fun i t v w ht hv hw => ?_⟩
      have hi : i < all.length := (List.getElem?_eq_some_iff.1 ht).1
      have hlike := (hafter i t v (Nat.zero_le _) ht hv).2 (hP i hi)
      rwa [hitem i w hw] at hlike
  · intro hP n hn
    obtain ⟨c', b₁, hloop⟩ :=
      elementsLoop_returns hvs hds hall off (m := all.length) hn hP (i := 0) List.drop_zero
      (b := { reader := s₂, out := old }) (by rwa [List.drop_zero]) (fun _ _ => rfl)
    obtain ⟨hend, -⟩ :=
      elementsLoop_ends hvs hds hall (i := 0) List.drop_zero (by rwa [List.drop_zero])
      (fun _ _ => rfl) hlen hloop
    obtain ⟨c'', s₃, hnext, -⟩ := L.next_done hend
    refine ⟨{ b₁ with reader := s₃ }, ?_⟩
    unfold decodeElements
    rw [call_bind hoff, call_bind harray, Run.bind_of_ok hloop, call_bind hnext]
    rfl

end

end VCodec
