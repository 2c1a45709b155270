import VCodec.Cbor.Encode
import VCodec.Cbor.Sequence
import VCodec.Json.Write

/-!
# Prepared keys

The keys that the compiler writes into a fixed buffer, against the keys that are escaped or headed
at run time. They agree but for one check: only a key written at run time is validated as UTF-8.
-/

namespace VCodec

namespace Cbor

theorem makeHead_length_le (m : Major) (v : Nat) : (makeHead m v).length ≤ 9 := by
  unfold makeHead
  split_ifs <;> simp [be_length]

/-- The bytes of a key, put into a buffer one by one. -/
def keyBlob (capacity : Nat) (key : Bytes) : Bytes :=
  key.foldl (fun b x => fixedAppend capacity b [x]) []

/-- `prepared_key<Name>` with its buffer. -/
def preparedNameBlob (name : Bytes) : W Unit := do
  keyStart
  append (keyBlob (name.length + 9) (encodeTextKey name))
  keyEnd

/-- `prepared_key<Key>` with its buffer. -/
def preparedKeyBlob (k : Int) : W Unit := do
  keyStart
  append (keyBlob 9 (intHead k))
  keyEnd

theorem keyBlob_eq {n : Nat} {key : Bytes} (h : key.length ≤ n) : keyBlob n key = key := by
  have hfill := @foldl_fixedAppend n 1 (fun x => [x]) (fun _ => Nat.le_refl 1) [] key
    (by rw [List.length_nil]; omega)
  rw [keyBlob, hfill, List.nil_append, List.flatMap_singleton']

theorem preparedNameBlob_eq (name : Bytes) : preparedNameBlob name = preparedKey name := by
  have hlen : (encodeTextKey name).length ≤ name.length + 9 := by
    have hhead := makeHead_length_le .text name.length
    rw [encodeTextKey, List.length_append]
    omega
  rw [preparedNameBlob, keyBlob_eq hlen]
  rfl

theorem preparedKeyBlob_eq (k : Int) : preparedKeyBlob k = keySint k := by
  have hlen : (intHead k).length ≤ 9 := by
    unfold intHead
    split <;> exact makeHead_length_le _ _
  rw [preparedKeyBlob, keyBlob_eq hlen]
  rfl

theorem key_run (o : Options) (name : Bytes) (w : Writer) :
    key o name w =
      match (if o.validateUtf8 then validateUtf8 name else none) with
      | some bad =>
        .error (encodeError .invalidUtf8
          (str "text string contains invalid UTF-8 at byte " ++ decimal bad))
          (w.modifyTop Frame.keyStart)
      | none => preparedKey name w := by
  unfold key
  cases o.validateUtf8 with
  | false => rfl
  | true =>
    rw [if_pos rfl, if_pos rfl]
    unfold checkUtf8
    cases validateUtf8 name <;> rfl

end Cbor

/-! ### The two ways to write a key -/

theorem Cbor.preparedNameBlob_iff (o : Cbor.Options) (name : Bytes) (w : Cbor.Writer) :
    Cbor.preparedNameBlob name w = Cbor.key o name w ↔
      (o.validateUtf8 = true → Utf8.Valid name) := by
  rw [Cbor.preparedNameBlob_eq, Cbor.key_run]
  have hprepared : Cbor.preparedKey name w =
    .ok () ((((w.modifyTop Cbor.Frame.keyStart).append (Cbor.encodeTextKey name))).modifyTop
      Cbor.Frame.keyEnd) := rfl
  cases hvalidate : o.validateUtf8 with
  | false => simp
  | true =>
    rw [if_pos rfl, ← validateUtf8_eq_none]
    cases validateUtf8 name with
    | none => simp
    | some bad => simp [hprepared]

theorem Json.preparedKey_iff (o : Json.Options) (name : Bytes) (w : Json.Writer) :
    Json.preparedKey o name w = Json.key o name w ↔ (o.validateUtf8 = true → Utf8.Valid name) := by
  rw [Json.preparedKey_run]
  constructor
  · intro heq hvalidate
    by_contra hvalid
    obtain ⟨e, he⟩ := Json.writeString_of_not_valid hvalid (w.before o).out
    have hput : Json.putString o name (w.before o) = .error e (w.before o) := by
      rw [Json.putString, hvalidate, he]
    rw [Json.key_run, Run.bind_of_error hput] at heq
    cases heq
  · intro hvalid
    rw [Json.key_of_valid o w hvalid]

/-- A prepared key is the key itself, unless the key is refused. -/
theorem prepared_keys (name : Bytes) (k : Int) (o : Cbor.Options) (w : Cbor.Writer)
    (p : Json.Options) (v : Json.Writer) :
    (Cbor.preparedNameBlob name w = Cbor.key o name w ↔ (o.validateUtf8 = true → Utf8.Valid name)) ∧
    Cbor.preparedKeyBlob k w = Cbor.keySint k w ∧
    (Json.preparedKey p name v = Json.key p name v ↔ (p.validateUtf8 = true → Utf8.Valid name)) :=
  ⟨Cbor.preparedNameBlob_iff o name w, congrFun (Cbor.preparedKeyBlob_eq k) w,
    Json.preparedKey_iff p name v⟩

/-- The key of a map with one entry: at run time it is refused, prepared it is written. -/
theorem prepared_key_unchecked :
    (∃ w, (Cbor.beginMap {} (some 1) >>= fun _ => Cbor.preparedNameBlob [0xFF] >>= fun _ =>
      Cbor.null >>= fun _ =>
      Cbor.endMap) {} = .ok () w ∧ w.out = [0xA1, 0x61, 0xFF, 0xF6]) ∧
    (∃ w, (Cbor.beginMap {} (some 1) >>= fun _ => Cbor.key {} [0xFF]) {} =
      .error (Cbor.encodeError .invalidUtf8 (str "text string contains invalid UTF-8 at byte 0")) w)
        ∧
    (∃ w, (Json.openLevel {} 0x7B >>= fun _ => Json.preparedKey {} [0xFF] >>= fun _ =>
      Json.null {} >>= fun _ =>
      Json.closeLevel {} 0x7D) (Json.startWriter {} []) = .ok () w ∧
      w.out = [0x7B, 0x22, 0xFF, 0x22, 0x3A] ++ str "null\x7d") ∧
    ∃ w, (Json.openLevel {} 0x7B >>= fun _ => Json.key {} [0xFF]) (Json.startWriter {} []) =
      .error { code := .invalidUtf8, message := str "string contains invalid UTF-8 at byte 0" } w :=
  ⟨⟨_, rfl, rfl⟩, ⟨_, rfl⟩, ⟨_, rfl, rfl⟩, ⟨_, rfl⟩⟩

end VCodec
