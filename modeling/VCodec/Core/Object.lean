import VCodec.Core.Span

/-!
# The object that is decoded into

`decode_into` starts from an object of the caller's, `decode` from a value-initialised one. What the
object holds makes no difference to what is read and which errors are met: an object is overwritten
before it is looked at, and where it is filled in place, an array, a tuple or a struct, only the
number of its parts counts, which its type fixes.
-/

namespace VCodec

open D
open EStateM (Result)

variable {σ S M α β : Type}

/-! ### Objects of a type -/

/-- The types of the parts that an object of the type is filled in by. -/
def Ty.slots (env : Env) : Ty → Option (List Ty)
  | .array n t => some (List.replicate n t)
  | .tuple ts => some ts
  | .struct id => some ((env.structs id).fields.map Field.ty)
  | _ => none

/-- The value has the parts that an object of the type has. -/
inductive Shaped (env : Env) : Ty → Val → Prop
  | parts {t : Ty} {ts : List Ty} {vs : List Val} (hts : t.slots env = some ts)
      (hlen : vs.length = ts.length)
      (h : ∀ i u, ts[i]? = some u → Shaped env u (vs.getD i .null)) : Shaped env t (.seq vs)
  | whole {t : Ty} {v : Val} (ht : t.slots env = none) : Shaped env t v

/-- The values that a program's structs start from and default to are objects of their types. -/
def Env.Regular (env : Env) : Prop :=
  ∀ id, ∀ f ∈ (env.structs id).fields,
    Shaped env f.ty f.initial ∧ ∀ v, f.default = some v → Shaped env f.ty (f.defaulted v)

namespace Shaped

variable {env : Env} {t : Ty} {ts : List Ty} {v w : Val}

theorem part (h : Shaped env t v) (hts : t.slots env = some ts) {i : Nat} {u : Ty}
    (hu : ts[i]? = some u) :
    Shaped env u (v.item i) := by
  cases h with
  | parts hts' _ h =>
    rw [hts] at hts'
    cases hts'
    exact h i u hu
  | whole ht =>
    rw [hts] at ht
    cases ht

theorem setItem (h : Shaped env t v) (hts : t.slots env = some ts) {i : Nat} {u : Ty}
    (hu : ts[i]? = some u) (hw : Shaped env u w) : Shaped env t (Val.setItem i v w) := by
  cases h with
  | whole ht =>
    rw [hts] at ht
    cases ht
  | @parts t ts' vs hts' hlen h =>
    rw [hts] at hts'
    cases hts'
    refine .parts hts (by rw [List.length_set]; exact hlen) fun j u' hj => ?_
    have hlt : i < vs.length := hlen ▸ (List.getElem?_eq_some_iff.1 hu).1
    have hitems : (Val.seq vs).items = vs := rfl
    rw [hitems, List.getD_eq_getElem?_getD, List.getElem?_set]
    by_cases hij : i = j
    · subst hij
      rw [hu] at hj
      cases hj
      rw [if_pos rfl, if_pos hlt]
      exact hw
    · rw [if_neg hij, ← List.getD_eq_getElem?_getD]
      exact h j u' hj

theorem length (h : Shaped env t v) (hts : t.slots env = some ts) : v.items.length = ts.length := by
  cases h with
  | parts hts' hlen _ =>
    rw [hts] at hts'
    cases hts'
    exact hlen
  | whole ht =>
    rw [hts] at ht
    cases ht

end Shaped

mutual

theorem shaped_zero {env : Env} (henv : env.Regular) : ∀ t : Ty, Shaped env t (t.zero env)
  | .tuple ts => by
    rw [Ty.zero]
    exact .parts rfl (length_zeros ts) fun i u hu => shaped_zeros henv ts i u hu
  | .array n t => by
    rw [Ty.zero]
    refine .parts rfl (by rw [List.length_replicate, List.length_replicate]) fun i u hu => ?_
    rw [List.getElem?_replicate] at hu
    split at hu
    · rename_i hlt
      cases hu
      rw [List.getD_eq_getElem?_getD, List.getElem?_replicate, if_pos hlt]
      exact shaped_zero henv t
    · cases hu
  | .struct id => by
    rw [Ty.zero]
    refine .parts rfl (by rw [List.length_map, List.length_map]) fun i u hu => ?_
    rw [List.getElem?_map, Option.map_eq_some_iff] at hu
    obtain ⟨f, hf, rfl⟩ := hu
    rw [List.getD_eq_getElem?_getD, List.getElem?_map, hf]
    exact (henv id f (List.mem_of_getElem? hf)).1
  | .bool | .char | .int _ | .float | .double | .enum _ | .string _ | .optional _ | .variant
      _ | .byteRange _
  | .map _ _ _ | .seq _ _ | .time _ => .whole rfl

theorem length_zeros {env : Env} : ∀ ts : List Ty, (Ty.zeros env ts).length = ts.length
  | [] => rfl
  | t :: ts => by rw [Ty.zeros, List.length_cons, List.length_cons, length_zeros ts]

theorem shaped_zeros {env : Env} (henv : env.Regular) :
    ∀ (ts : List Ty) (i : Nat) (u : Ty), ts[i]? = some u →
    Shaped env u ((Ty.zeros env ts).getD i .null)
  | t :: ts, 0, u, hu => by
    cases hu
    exact shaped_zero henv t
  | t :: ts, i + 1, u, hu => shaped_zeros henv ts i u hu

end

/-! ### Runs on two objects -/

/-- Two results are the same up to the object, and the objects satisfy `P`. -/
def Twin (P : Val → Prop) : Result Abort (Build σ) α → Result Abort (Build σ) α → Prop
  | .ok a b, .ok a' b' => a = a' ∧ b.reader = b'.reader ∧ P b.out ∧ P b'.out
  | .error e b, .error e' b' => e = e' ∧ b.reader = b'.reader ∧ P b.out ∧ P b'.out
  | _, _ => False

/-- Runs on objects that satisfy `P` do not depend on the object. -/
def Blind (P : Val → Prop) (m : D σ α) : Prop :=
  ∀ s v w, P v → P w → Twin P (m { reader := s, out := v }) (m { reader := s, out := w })

namespace Blind

variable {P Q : Val → Prop} {m : D σ α} {f : α → D σ β}

/-- A run that leaves the object alone. -/
theorem of_frame
    {m : D σ α} (h : ∀ s v w, match m { reader := s, out := v }, m { reader := s, out := w } with
    | .ok a b, .ok a' b' => a = a' ∧ b.reader = b'.reader ∧ b.out = v ∧ b'.out = w
    | .error e b, .error e' b' => e = e' ∧ b.reader = b'.reader ∧ b.out = v ∧ b'.out = w
    | _, _ => False) : Blind P m := by
  intro s v w hv hw
  have h := h s v w
  cases hx : m { reader := s, out := v } with
  | ok a b =>
    cases hy : m { reader := s, out := w } with
    | ok a' b' =>
      rw [hx, hy] at h
      exact ⟨h.1, h.2.1, h.2.2.1 ▸ hv, h.2.2.2 ▸ hw⟩
    | error e' b' =>
      rw [hx, hy] at h
      exact h.elim
  | error e b =>
    cases hy : m { reader := s, out := w } with
    | ok a' b' =>
      rw [hx, hy] at h
      exact h.elim
    | error e' b' =>
      rw [hx, hy] at h
      exact ⟨h.1, h.2.1, h.2.2.1 ▸ hv, h.2.2.2 ▸ hw⟩

theorem pure (a : α) : Blind P (pure a : D σ α) := fun _ _ _ hv hw => ⟨rfl, rfl, hv, hw⟩

theorem throw (e : Abort) : Blind P (throw e : D σ α) := fun _ _ _ hv hw => ⟨rfl, rfl, hv, hw⟩

theorem fail (e : Error) : Blind P (fail e : D σ α) := .throw _

theorem call (m : EStateM Error σ α) : Blind P (call m) := by
  apply of_frame
  intro s v w
  unfold D.call
  cases m s <;> exact ⟨rfl, rfl, rfl, rfl⟩

theorem attempt (m : EStateM Error σ α) : Blind P (attempt m) := by
  apply of_frame
  intro s v w
  unfold D.attempt
  cases m s <;> exact ⟨rfl, rfl, rfl, rfl⟩

theorem getReader : Blind P (getReader : D σ σ) := fun _ _ _ hv hw => ⟨rfl, rfl, hv, hw⟩

theorem modifyReader (f : σ → σ) : Blind P (modifyReader f) := fun _ _ _ hv hw => ⟨rfl, rfl, hv, hw⟩

theorem setOut {v : Val} (hv : P v) : Blind P (setOut v : D σ Unit) :=
  fun _ _ _ _ _ => ⟨rfl, rfl, hv, hv⟩

theorem bind (hm : Blind P m) (hf : ∀ a, Blind P (f a)) : Blind P (m >>= f) := by
  intro s v w hv hw
  have h := hm s v w hv hw
  rw [Run.bind_apply, Run.bind_apply]
  cases hx : m { reader := s, out := v } with
  | ok a b =>
    cases hy : m { reader := s, out := w } with
    | ok a' b' =>
      rw [hx, hy] at h
      obtain ⟨rfl, hreader, hb, hb'⟩ := h
      obtain ⟨s₁, v₁⟩ := b
      obtain ⟨s₂, w₁⟩ := b'
      obtain rfl : s₁ = s₂ := hreader
      exact hf a s₁ v₁ w₁ hb hb'
    | error e' b' =>
      rw [hx, hy] at h
      exact h.elim
  | error e b =>
    cases hy : m { reader := s, out := w } with
    | ok a' b' =>
      rw [hx, hy] at h
      exact h.elim
    | error e' b' =>
      rw [hx, hy] at h
      exact h

theorem ite {c : Prop} [Decidable c] {m n : D σ α} (hm : c → Blind P m) (hn : ¬ c → Blind P n) :
    Blind P (if c then m else n) := by
  by_cases hc : c
  · rw [if_pos hc]
    exact hm hc
  · rw [if_neg hc]
    exact hn hc

/-- An object that is overwritten. -/
theorem overwrite (v : Val) (f : Unit → D σ α) : Blind (fun _ => True) (do f (← D.setOut v)) := by
  intro s v₁ w₁ _ _
  show Twin _ (f () { reader := s, out := v }) (f () { reader := s, out := v })
  cases f () { reader := s, out := v } with
  | ok a b => exact ⟨rfl, rfl, trivial, trivial⟩
  | error e b => exact ⟨rfl, rfl, trivial, trivial⟩

theorem mono (h : Blind P m) (hPQ : ∀ v, P v ↔ Q v) : Blind Q m := by
  obtain rfl : P = Q := funext fun v => propext (hPQ v)
  exact h

theorem mapError {g : Error → Error} (h : Blind P m) : Blind P (mapError g m) := by
  intro s v w hv hw
  have h := h s v w hv hw
  unfold D.mapError Run.mapError
  cases hx : m { reader := s, out := v } with
  | ok a b =>
    cases hy : m { reader := s, out := w } with
    | ok a' b' => rwa [hx, hy] at h
    | error e' b' =>
      rw [hx, hy] at h
      exact h.elim
  | error e b =>
    cases hy : m { reader := s, out := w } with
    | ok a' b' =>
      rw [hx, hy] at h
      exact h.elim
    | error e' b' =>
      rw [hx, hy] at h
      obtain ⟨rfl, h⟩ := h
      exact ⟨rfl, h⟩

/-- A step of the path depends on the reader only. -/
theorem inStep (r : Reader σ S M) {step : Error → Error} (h : Blind P m) :
    Blind P (inStep r step m) := by
  intro s v w hv hw
  have h := (h.mapError (g := step)) s v w hv hw
  unfold D.inStep
  cases hx : D.mapError step m { reader := s, out := v } with
  | ok a b =>
    cases hy : D.mapError step m { reader := s, out := w } with
    | ok a' b' =>
      rw [hx, hy] at h
      obtain ⟨rfl, hreader, h⟩ := h
      cases r.errors with
      | failFast => exact ⟨rfl, hreader, h⟩
      | collect => exact ⟨rfl, by simp only [hreader], h⟩
    | error e' b' =>
      rw [hx, hy] at h
      exact h.elim
  | error e b =>
    cases hy : D.mapError step m { reader := s, out := w } with
    | ok a' b' =>
      rw [hx, hy] at h
      exact h.elim
    | error e' b' =>
      rw [hx, hy] at h
      obtain ⟨rfl, hreader, h⟩ := h
      cases r.errors with
      | failFast => exact ⟨rfl, hreader, h⟩
      | collect => exact ⟨rfl, by simp only [hreader], h⟩

/-- A part of the object is run on. -/
theorem focus {get : Val → Val} {put : Val → Val → Val} (h : Blind Q m)
    (hget : ∀ v, P v → Q (get v)) (hput : ∀ v u, P v → Q u → P (put v u)) :
    Blind P (focus get put m) := by
  intro s v w hv hw
  have h := h s (get v) (get w) (hget v hv) (hget w hw)
  unfold D.focus
  cases hx : m { reader := s, out := get v } with
  | ok a b =>
    cases hy : m { reader := s, out := get w } with
    | ok a' b' =>
      rw [hx, hy] at h
      exact ⟨h.1, h.2.1, hput _ _ hv h.2.2.1, hput _ _ hw h.2.2.2⟩
    | error e' b' =>
      rw [hx, hy] at h
      exact h.elim
  | error e b =>
    cases hy : m { reader := s, out := get w } with
    | ok a' b' =>
      rw [hx, hy] at h
      exact h.elim
    | error e' b' =>
      rw [hx, hy] at h
      exact ⟨h.1, h.2.1, hput _ _ hv h.2.2.1, hput _ _ hw h.2.2.2⟩

end Blind

/-- What construction relies on: the bulk form counts the elements of an array, and what an
annotation turns into bytes has no parts of its own. -/
structure ObjectLaws (env : Env) (r : Reader σ S M) : Prop where
  readRange : ∀ f t, r.traits.bulkRange f t ∨ r.traits.acceptsBulkRange t →
    Blind (Shaped env t) (r.readRange t)
  isBytes : ∀ f n t, r.traits.isBytes f (.array n t) = true → t.slots env = none

variable {env : Env} {r : Reader σ S M} {P : Val → Prop}

/-! ### Scalars, strings and bytes -/

theorem blind_decodeUint (f : FieldMeta) (k : IntTy) : Blind P (decodeUint env r f k) := by
  refine (Blind.call _).bind fun off => (Blind.call _).mapError.bind fun u => ?_
  exact .ite (fun _ => .fail _) fun _ => .pure _

theorem blind_decodeSint (f : FieldMeta) (k : IntTy) : Blind P (decodeSint env r f k) := by
  refine (Blind.call _).bind fun off => (Blind.call _).mapError.bind fun i => ?_
  exact .ite (fun _ => .fail _) fun _ => .pure _

theorem blind_decodeInt (f : FieldMeta) (k : IntTy) : Blind P (decodeInt env r f k) := by
  unfold decodeInt
  split
  · exact blind_decodeSint f k
  · exact blind_decodeUint f k

theorem blind_decodeEnum (f : FieldMeta) (e : EnumDef) :
    Blind (Shaped env (.enum e)) (decodeEnum env r f e) := by
  refine (Blind.call _).bind fun off => .ite (fun _ => ?_) fun _ => ?_
  · refine (blind_decodeInt f _).bind fun raw => ?_
    cases e.enumerators.find? (fun en => en.value = raw ∧ ¬ en.skipped) with
    | none => exact .fail _
    | some en => exact .setOut (.whole rfl)
  · refine (Blind.call _).bind fun t => ?_
    cases e.find t.text with
    | none => exact .fail _
    | some en => exact .setOut (.whole rfl)

theorem blind_decodeString (f : FieldMeta) (view : Bool) :
    Blind (Shaped env (.string view)) (decodeString env r f view) := by
  refine (Blind.call _).bind fun off => (Blind.call _).bind fun t => ?_
  exact .ite (fun _ => .fail _) fun _ => .setOut (.whole rfl)

theorem blind_decodeChar : Blind (Shaped env .char) (decodeChar r) := by
  refine (Blind.call _).bind fun off => (Blind.call _).bind fun t => ?_
  split
  · exact .setOut (.whole rfl)
  · exact .fail _

theorem shaped_bytes {n : Nat} {t : Ty} (ht : t.slots env = none) {b : Bytes} (hb : b.length = n) :
    Shaped env (.array n t) (bytesVal (.array n t) b) := by
  refine .parts rfl (by rw [List.length_map, List.length_replicate, hb]) fun i u hu => ?_
  rw [List.getElem?_replicate] at hu
  split at hu
  · cases hu
    exact .whole ht
  · cases hu

theorem blind_decodeBytes (f : FieldMeta) {t : Ty}
    (ht : ∀ ts, t.slots env = some ts → ∃ n u, t = .array n u ∧ u.slots env = none) :
    Blind (Shaped env t) (decodeBytes env r f t) := by
  refine (Blind.call _).bind fun off => (Blind.call _).bind fun b =>
    .ite (fun _ => .fail _) fun _ => ?_
  refine .ite (fun hcount => .setOut ?_) fun _ => .fail _
  cases hslots : t.slots env with
  | none => exact .whole hslots
  | some ts =>
    obtain ⟨n, u, rfl, hu⟩ := ht ts hslots
    exact shaped_bytes hu (hcount n rfl)

theorem blind_decodeOptional (dec : D σ Unit) (t : Ty) :
    Blind (fun _ => True) (decodeOptional env r dec t) := by
  refine (Blind.call _).bind fun kind => .ite (fun _ => ?_) fun _ => .overwrite _ _
  exact (Blind.call _).bind fun _ => .setOut trivial

theorem blind_decodeTime (f : FieldMeta) (d : Duration) :
    Blind (Shaped env (.time d)) (decodeTime env r f d) := by
  refine .ite (fun _ => ?_) fun _ => ?_
  · refine (Blind.call _).bind fun off => (Blind.call _).bind fun t => ?_
    cases env.parseTime t.text with
    | none => exact .fail _
    | some secs => exact .setOut (.whole rfl)
  · refine (Blind.call _).bind fun kind => .ite (fun _ => ?_) fun _ => ?_
    · exact (Blind.call _).bind fun i => .setOut (.whole rfl)
    · exact (Blind.call _).bind fun x => .setOut (.whole rfl)

/-! ### Arrays and maps -/

theorem blind_decodeSequence (fuel : Nat) (dec : D σ Unit) (kind : SeqKind) (t : Ty) :
    Blind (fun _ => True) (decodeSequence env r fuel dec kind t) :=
  (Blind.call _).bind fun _ => .overwrite _ _

theorem blind_decodeMap (fuel : Nat) (dec : D σ Unit) (f : FieldMeta) (kind : MapKind) (kt : KeyTy)
    (t : Ty) :
    Blind (fun _ => True) (decodeMap env r fuel dec f kind kt t) :=
  (Blind.call _).bind fun _ => .overwrite _ _

/-- A part is decoded on what it holds. -/
theorem blind_onItem {t u : Ty} {ts : List Ty} {m : D σ α} (hm : Blind (Shaped env u) m)
    (hts : t.slots env = some ts) {i : Nat} (hu : ts[i]? = some u) :
    Blind (Shaped env t) (onItem i m) :=
  hm.focus (fun _ hv => hv.part hts hu) fun _ _ hv hw => hv.setItem hts hu hw

theorem blind_elementsLoop {dec : Ty → D σ Unit} (hdec : ∀ t, Blind (Shaped env t) (dec t))
    {t : Ty} {all : List Ty} (hall : t.slots env = some all) (off n : Nat) (ts : List Ty) (i : Nat)
    (hts : all.drop i = ts) (c : S) :
    Blind (Shaped env t) (elementsLoop r dec off n ts i c) := by
  induction ts generalizing i c with
  | nil => exact .pure _
  | cons u ts ih =>
    have hu : all[i]? = some u := by rw [← List.head?_drop, hts, List.head?_cons]
    have hrest : all.drop (i + 1) = ts := by rw [← List.tail_drop, hts, List.tail_cons]
    refine (Blind.call _).bind fun (more, c) => .ite (fun _ => ?_) fun _ => .fail _
    exact (blind_onItem ((hdec u).inStep r) hall hu).bind fun _ => ih (i + 1) hrest c

theorem blind_extraLoop (fuel : Nat) (c : S) (extra : Nat) :
    Blind P (extraLoop r fuel c extra) := by
  induction fuel generalizing c extra with
  | zero => exact .throw _
  | succ fuel ih =>
    refine (Blind.call _).bind fun _ => (Blind.call _).bind fun (more, c) => ?_
    exact .ite (fun _ => ih c _) fun _ => .pure _

theorem blind_decodeElements {dec : Ty → D σ Unit} (hdec : ∀ t, Blind (Shaped env t) (dec t))
    {t : Ty} {ts : List Ty} (hts : t.slots env = some ts) (fuel : Nat) :
    Blind (Shaped env t) (decodeElements r fuel dec ts) := by
  refine (Blind.call _).bind fun off => (Blind.call _).bind fun c => ?_
  refine (blind_elementsLoop hdec hts off ts.length ts 0 List.drop_zero c).bind fun c => ?_
  refine (Blind.call _).bind fun (more, c) => .ite (fun _ => ?_) fun _ => .pure _
  exact (blind_extraLoop fuel c _).bind fun extra => .fail _

/-! ### Members -/

theorem blind_decodeTags (f : FieldMeta) (tags : List Nat) : Blind P (decodeTags r f tags) :=
  .ite (fun _ => .pure _) fun _ => (Blind.call _).mapError

theorem blind_decodeBulk (L : ObjectLaws env r) {m : D σ Unit} {t : Ty}
    (hm : Blind (Shaped env t) m) (f : FieldMeta) :
    Blind (Shaped env t) (decodeBulk r m f t) :=
  .ite (fun h => (L.readRange f t h).bind fun _ => .ite (fun _ => .pure _) fun _ => hm) fun _ => hm

/-- What satisfies everything is an object of a type without parts. -/
theorem blind_of_whole {t : Ty} (ht : t.slots env = none) {m : D σ α}
    (h : Blind (fun _ => True) m) :
    Blind (Shaped env t) m := h.mono fun _ => ⟨fun _ => .whole ht, fun _ => trivial⟩

theorem blind_decodeFieldValue
    (L : ObjectLaws env r) {dec : Ty → D σ Unit} (hdec : ∀ t, Blind (Shaped env t) (dec t))
    (f : FieldMeta) (t : Ty) : Blind (Shaped env t) (decodeFieldValue env r dec f t) := by
  unfold decodeFieldValue
  split
  · exact blind_of_whole rfl (blind_decodeOptional _ _)
  · exact (blind_decodeTags f _).bind fun _ => blind_decodeBulk L (hdec _) f

/-! ### Structs -/

theorem blind_readEntryKey (s : StructDef) : Blind P (readEntryKey r s) := by
  have hkind : Blind P (entryKeyKind r s) := .ite (fun _ => Blind.call _) fun _ => .pure _
  refine hkind.bind fun kind => .ite (fun _ => ?_) fun _ => .ite (fun _ => ?_) fun _ => ?_
  · exact (Blind.call _).bind fun u => .ite (fun _ => .pure _) fun _ => .pure _
  · exact (Blind.call _).bind fun i => .pure _
  · exact (Blind.call _).bind fun t => .pure _

theorem blind_collect (e : Error) : Blind P (collect r e) := Blind.modifyReader _

theorem blind_reportKey (e : Error) : Blind P (reportKey r e) := by
  unfold reportKey
  cases r.errors with
  | failFast => exact .fail e
  | collect => exact (blind_collect e).bind fun _ => Blind.call _

theorem blind_recover {m : D σ Unit} (hm : Blind P m) : Blind P (recover r m) := by
  intro s v w hv hw
  have h := hm s v w hv hw
  unfold recover
  cases r.errors with
  | failFast => exact h
  | collect =>
    simp only
    cases hx : m { reader := s, out := v } with
    | ok a b =>
      cases hy : m { reader := s, out := w } with
      | ok a' b' => rwa [hx, hy] at h
      | error e' b' =>
        rw [hx, hy] at h
        exact h.elim
    | error e b =>
      cases hy : m { reader := s, out := w } with
      | ok a' b' =>
        rw [hx, hy] at h
        exact h.elim
      | error e' b' =>
        rw [hx, hy] at h
        obtain ⟨rfl, hreader, hb, hb'⟩ := h
        cases e with
        | error e =>
          simp only
          split
          · exact ⟨rfl, hreader, hb, hb'⟩
          · obtain ⟨s₁, v₁⟩ := b
            obtain ⟨s₂, w₁⟩ := b'
            obtain rfl : s₁ = s₂ := hreader
            have hskip : Blind P (do
                collect r e
                D.modifyReader (r.restore (r.save s))
                D.call r.skipValue) :=
              (blind_collect e).bind fun _ => (Blind.modifyReader _).bind fun _ => Blind.call _
            exact hskip s₁ v₁ w₁ hb hb'
        | rejected => exact ⟨rfl, hreader, hb, hb'⟩
        | outOfFuel => exact ⟨rfl, hreader, hb, hb'⟩

theorem blind_unknownEntry (s : StructDef) (ignoreKey : Bytes) (off : Nat) (key : EntryKey) :
    Blind P (unknownEntry r s ignoreKey off key) :=
  .ite (fun _ => Blind.call _) fun _ => .ite (fun _ => blind_reportKey _) fun _ => Blind.call _

theorem blind_memberEntry
    {dec : FieldMeta → Ty → D σ Unit} (hdec : ∀ f t, Blind (Shaped env t) (dec f t))
    {t : Ty} {ts : List Ty} (hts : t.slots env = some ts) {i : Nat} {f : Field}
    (hf : ts[i]? = some f.ty) (off : Nat) (key : EntryKey) (seen : List Nat) :
    Blind (Shaped env t) (memberEntry r dec i f off key seen) := by
  refine .ite (fun _ => Blind.call _) fun _ => .ite (fun _ => blind_reportKey _) fun _ => ?_
  refine .ite (fun _ => Blind.call _) fun _ => ?_
  exact blind_recover ((blind_onItem (hdec _ _) hts hf).inStep r)

theorem blind_structEntry
    {dec : FieldMeta → Ty → D σ Unit} (hdec : ∀ f t, Blind (Shaped env t) (dec f t))
    {t : Ty} {s : StructDef} (hts : t.slots env = some (s.fields.map Field.ty))
    (ignoreKey : Bytes) (off : Nat) (seen : List Nat) (key : Except Nat EntryKey) :
    Blind (Shaped env t) (structEntry r dec s ignoreKey off seen key) := by
  unfold structEntry
  cases key with
  | error u =>
    refine Blind.bind ?_ fun _ => .pure _
    exact (Blind.call _).bind fun _ => .ite (fun _ => .fail _) fun _ => .pure _
  | ok key =>
    simp only
    cases s.resolve r key with
    | none => exact (blind_unknownEntry s ignoreKey off key).bind fun _ => .pure _
    | some i =>
      simp only
      cases hf : s.fields[i]? with
      | none => exact .throw _
      | some f =>
        have hty : (s.fields.map Field.ty)[i]? = some f.ty := by
          rw [List.getElem?_map, hf, Option.map_some]
        exact (blind_memberEntry hdec hts hty off key seen).bind fun _ => .pure _

theorem blind_structLoop
    {dec : FieldMeta → Ty → D σ Unit} (hdec : ∀ f t, Blind (Shaped env t) (dec f t))
    {t : Ty} {s : StructDef} (hts : t.slots env = some (s.fields.map Field.ty))
    (ignoreKey : Bytes) (fuel : Nat) (c : M) (seen : List Nat) :
    Blind (Shaped env t) (structLoop r dec s ignoreKey fuel c seen) := by
  induction fuel generalizing c seen with
  | zero => exact .throw _
  | succ fuel ih =>
    refine (Blind.call _).bind fun (more, c) => .ite (fun _ => ?_) fun _ => .pure _
    refine (Blind.call _).bind fun off => (blind_readEntryKey s).bind fun key => ?_
    exact (blind_structEntry hdec hts ignoreKey off seen key).bind fun seen => ih c seen

theorem blind_describeLoop (fuel : Nat) (c : M) (e : Error) (count : Nat) :
    Blind P (describeLoop r fuel c e count) := by
  induction fuel generalizing c e count with
  | zero => exact .throw _
  | succ fuel ih =>
    refine (Blind.attempt _).bind fun next => ?_
    split
    · refine (Blind.call _).bind fun kind => (Blind.attempt _).bind fun key => ?_
      cases key with
      | none => exact .pure _
      | some key =>
        refine (Blind.attempt _).bind fun skipped => ?_
        cases skipped with
        | none => exact .pure _
        | some _ => exact ih _ _ _
    · exact .pure _

theorem blind_describePresentKeys (fuel save : Nat) (e : Error) :
    Blind P (describePresentKeys r fuel save e) := by
  have hmap : Blind P (describeMap r fuel e) := by
    refine (Blind.attempt _).bind fun c => ?_
    cases c with
    | none => exact .pure _
    | some c => exact blind_describeLoop fuel c e 0
  refine Blind.getReader.bind fun s => (Blind.modifyReader _).bind fun _ =>
    hmap.bind fun described => ?_
  exact (Blind.modifyReader _).bind fun _ => .pure _

theorem blind_reportMissing
    (fuel : Nat) (s : StructDef) (off save : Nat) (f : Field) (missing : Option Error) :
    Blind P (reportMissing r fuel s off save f missing) := by
  cases missing with
  | some e => exact .pure _
  | none =>
    refine (blind_describePresentKeys fuel save _).bind fun e => ?_
    cases r.errors with
    | failFast => exact .pure _
    | collect => exact (blind_collect e).bind fun _ => .pure _

theorem blind_missingMember {t : Ty} {ts : List Ty} (hts : t.slots env = some ts) (fuel : Nat)
    (s : StructDef) (off save i : Nat) {f : Field} (hf : ts[i]? = some f.ty)
    (hdefault : ∀ v, f.default = some v → Shaped env f.ty (f.defaulted v))
    (missing : Option Error) :
    Blind (Shaped env t) (missingMember r fuel s off save i f missing) := by
  refine .ite (fun _ => blind_reportMissing fuel s off save f missing) fun _ => ?_
  cases hv : f.default with
  | none => exact .pure _
  | some v => exact (blind_onItem (.setOut (hdefault v hv)) hts hf).bind fun _ => .pure _

theorem blind_missingLoop {t : Ty} {ts : List Ty} (hts : t.slots env = some ts) (fuel : Nat)
    (s : StructDef) (off save : Nat) (seen : List Nat) (fs : List Field) (i : Nat)
    (hfs : ts.drop i = fs.map Field.ty)
    (hdefault : ∀ f ∈ fs, ∀ v, f.default = some v → Shaped env f.ty (f.defaulted v))
    (missing : Option Error) :
    Blind (Shaped env t) (missingLoop r fuel s off save seen fs i missing) := by
  induction fs generalizing i missing with
  | nil => exact .pure _
  | cons f fs ih =>
    have hf : ts[i]? = some f.ty := by rw [← List.head?_drop, hfs, List.map_cons, List.head?_cons]
    have hrest : ts.drop (i + 1) = fs.map Field.ty := by
      rw [← List.tail_drop, hfs, List.map_cons, List.tail_cons]
    have hloop := ih (i + 1) hrest fun f hf => hdefault f (List.mem_cons_of_mem _ hf)
    refine .ite (fun _ => hloop missing) fun _ => ?_
    exact (blind_missingMember hts fuel s off save i hf (hdefault f List.mem_cons_self)
      missing).bind hloop

theorem blind_decodeStruct (henv : env.Regular) {dec : FieldMeta → Ty → D σ Unit}
    (hdec : ∀ f t, Blind (Shaped env t) (dec f t)) (fuel id : Nat) (ignoreKey : Bytes) :
    Blind (Shaped env (.struct id)) (decodeStruct r fuel dec (env.structs id) ignoreKey) := by
  have hts : (Ty.struct id).slots env = some ((env.structs id).fields.map Field.ty) := rfl
  unfold decodeStruct
  split
  · rename_i f fs _ hfields
    have hf : ((env.structs id).fields.map Field.ty)[0]? = some f.ty := by rw [hfields]; rfl
    exact (blind_onItem (hdec _ _) hts hf).inStep r
  · refine (Blind.call _).bind fun off => Blind.getReader.bind fun s =>
      (Blind.call _).bind fun c => ?_
    refine (blind_structLoop hdec hts ignoreKey fuel c []).bind fun seen => ?_
    refine (blind_missingLoop hts fuel _ off _ seen _ 0 rfl (fun f hf => (henv id f hf).2)
      none).bind fun missing => ?_
    cases missing with
    | none => exact .pure _
    | some e => exact .fail e

/-! ### Variants -/

theorem blind_consumeRest (fuel : Nat) (c : M) : Blind P (consumeRest r fuel c) := by
  induction fuel generalizing c with
  | zero => exact .throw _
  | succ fuel ih =>
    refine (Blind.call _).bind fun (more, c) => .ite (fun _ => ?_) fun _ => .pure _
    exact (Blind.call _).bind fun _ => (Blind.call _).bind fun _ => ih c

theorem blind_findTag (tagKey : Bytes) (fuel : Nat) (c : M) :
    Blind P (findTag r tagKey fuel c) := by
  induction fuel generalizing c with
  | zero => exact .throw _
  | succ fuel ih =>
    refine (Blind.call _).bind fun (more, c) => .ite (fun _ => ?_) fun _ => .pure _
    refine (Blind.call _).bind fun _ => (Blind.call _).bind fun t => .ite (fun _ => ?_) fun _ => ?_
    · refine (Blind.call _).bind fun off => (Blind.call _).bind fun tv => ?_
      exact (blind_consumeRest fuel c).bind fun _ => .pure _
    · exact (Blind.call _).bind fun _ => ih c

theorem blind_chooseAlternative (alts : List (Bytes × Ty))
    (tagKey : Bytes) (off : Nat) (tag : Option (Nat × Bytes)) :
    Blind P (chooseAlternative env r alts tagKey off tag) := by
  unfold chooseAlternative
  cases tag with
  | none => exact .fail _
  | some tag =>
    simp only
    cases findAlternative tag.2 alts 0 with
    | none => exact .fail _
    | some alt => exact .pure _

theorem blind_decodeVariant
    (fuel : Nat) (dec : Ty → D σ Unit) (decStruct : StructDef → Bytes → D σ Unit) (f : FieldMeta)
    (alts : List (Bytes × Ty)) :
    Blind (fun _ => True) (decodeVariant env r fuel dec decStruct f alts) := by
  unfold decodeVariant
  cases f.tagKey with
  | none => exact .throw _
  | some tagKey =>
    refine Blind.getReader.bind fun s => (Blind.call _).bind fun off =>
      (Blind.call _).bind fun c => ?_
    refine (blind_findTag tagKey fuel c).bind fun tag => ?_
    refine (blind_chooseAlternative alts tagKey off tag).bind fun alt => ?_
    exact (Blind.modifyReader _).bind fun _ => .overwrite _ _

/-! ### Values -/

/-- What is read and which errors are met do not depend on the object that is decoded into. -/
theorem blind_decodeValue (L : ObjectLaws env r) (henv : env.Regular) (fuel : Nat) (f : FieldMeta)
    (t : Ty) :
    Blind (Shaped env t) (decodeValue env r fuel f t) := by
  induction fuel generalizing f t with
  | zero => exact .throw _
  | succ fuel ih =>
    have hfield : ∀ f t, Blind (Shaped env t)
      (decodeFieldValue env r (decodeValue env r fuel f) f t) :=
      fun f t => blind_decodeFieldValue L (ih f) f t
    cases t with
    | bool => exact (Blind.call _).bind fun x => .setOut (.whole rfl)
    | char => exact blind_decodeChar
    | int k => exact (blind_decodeInt f k).bind fun i => .setOut (.whole rfl)
    | float => exact (Blind.call _).bind fun x => .setOut (.whole rfl)
    | double => exact (Blind.call _).bind fun x => .setOut (.whole rfl)
    | enum e => exact blind_decodeEnum f e
    | string view => exact blind_decodeString f view
    | optional t => exact blind_of_whole rfl (blind_decodeOptional _ t)
    | variant alts => exact blind_of_whole rfl (blind_decodeVariant _ _ _ f alts)
    | byteRange range => exact blind_decodeBytes f fun _ h => by cases h
    | map kind kt t => exact blind_of_whole rfl (blind_decodeMap _ _ f kind kt t)
    | tuple ts => exact blind_decodeElements (ih f) rfl fuel
    | array n t =>
      simp only [decodeValue]
      refine .ite (fun hbytes => ?_) fun _ => blind_decodeElements (ih f) rfl fuel
      exact blind_decodeBytes f fun _ _ => ⟨n, t, rfl, L.isBytes f n t hbytes⟩
    | seq kind t =>
      simp only [decodeValue]
      refine .ite (fun _ => ?_) fun _ => blind_of_whole rfl (blind_decodeSequence _ _ kind t)
      exact blind_decodeBytes f fun _ h => by cases h
    | struct id => exact blind_decodeStruct henv hfield fuel id []
    | time d => exact .ite (fun _ => blind_decodeTime f d) fun _ => .throw _

theorem blind_decode (L : ObjectLaws env r) (henv : env.Regular) (fuel : Nat) (t : Ty) :
    Blind (Shaped env t) (decode env r fuel t) := by
  intro s v w hv hw
  have h := (blind_decodeFieldValue L (blind_decodeValue L henv fuel noField) noField t).mapError
    (g := Error.finalize) s v w hv hw
  unfold decode
  simp only
  generalize mapError Error.finalize
    (decodeFieldValue env r (decodeValue env r fuel noField) noField t) = m at h
  cases hx : m { reader := s, out := v } with
  | ok a b =>
    cases hy : m { reader := s, out := w } with
    | ok a' b' =>
      rw [hx, hy] at h
      obtain ⟨rfl, hreader, h⟩ := h
      cases r.errors with
      | failFast => exact ⟨rfl, hreader, h⟩
      | collect => exact ⟨rfl, by simp only [hreader], h⟩
    | error e' b' =>
      rw [hx, hy] at h
      exact h.elim
  | error e b =>
    cases hy : m { reader := s, out := w } with
    | ok a' b' =>
      rw [hx, hy] at h
      exact h.elim
    | error e' b' =>
      rw [hx, hy] at h
      obtain ⟨rfl, hreader, h⟩ := h
      cases r.errors with
      | failFast => exact ⟨rfl, hreader, h⟩
      | collect => exact ⟨rfl, by simp only [hreader], h⟩

end VCodec
