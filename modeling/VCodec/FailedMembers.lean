import VCodec.Cbor.Api
import VCodec.Core.Begun
import VCodec.Core.Members
import VCodec.Json.Api

/-!
# Members that fail to decode

`decode_all` goes on behind a member that fails, and returns the object with what the failing
decoder has left in the member.
-/

namespace VCodec

open D
open Run (final)

variable {σ S M : Type}

variable {env : Env} {r : Reader σ S M}

/-! ### The failed member -/

/-- The decoder of the members of a struct. -/
def memberDecoder (env : Env) (r : Reader σ S M) (fuel : Nat) (f : FieldMeta) (t : Ty) : D σ Unit :=
  decodeFieldValue env r (decodeValue env r fuel f) f t

/-- A single entry names member `i`, with field `f`. Its value is decoded from `b₀`, and fails. -/
structure OnlyFailed (env : Env) (r : Reader σ S M) (fuel : Nat) (s : StructDef) (ignoreKey : Bytes)
    (i : Nat) (f : Field)
    (b b₀ : Build σ) : Prop where
  field : s.fields[i]? = some f
  decoded : f.skipDeserializing = false
  single : memberVisits r fuel (memberDecoder env r fuel) s ignoreKey i b = [b₀]
  fails : ∃ e b₁, memberDecoder env r fuel f.info f.ty { b₀ with out := b₀.out.item i } =
    .error e b₁

/-- What is left of a failed member that was `v`, by what its decoder has begun: the value itself if
that is nothing, and another one if that is something the member did not hold. -/
structure Left (env : Env) (t : Ty) (started : Option Holding) (v left : Val) : Prop where
  untouched : started = none → left = v
  changed : ∀ g, started = some g → v.holding ≠ some g → left ≠ v
  scalar : ∀ u, t = .optional u → u.atomic = true →
    (left = v ↔ started = none ∨ v = .some (u.zero env))

theorem left_fieldValue {fuel : Nat} {f : FieldMeta} {t : Ty} (ht : t.replaced = true)
    (hbulk : ∀ f t, t.replaced = true → r.traits.bulkRange f t = false)
    (haccepts : ∀ t, t.replaced = true → r.traits.acceptsBulkRange t = false) {b b' : Build σ}
    {a : Abort} (h : memberDecoder env r fuel f t b = .error a b') :
    Left env t (begun env r fuel f t b) b.out b'.out := by
  rcases decodeFieldValue_left ht (hbulk f t ht)
    (haccepts t ht) h with ⟨hbegun, hout⟩ | ⟨g, hbegun, hout⟩
  · rw [hbegun, hout]
    exact ⟨fun _ => rfl, fun _ => nofun, fun _ _ _ => ⟨fun _ => .inl rfl, fun _ => rfl⟩⟩
  have hsome : begun env r fuel f t b ≠ none := by
    rw [hbegun]
    exact Option.some_ne_none g
  refine ⟨fun hnone => absurd hnone hsome, ?_, ?_⟩
  · intro g' hg' hheld hsame
    rw [hbegun] at hg'
    rw [← hsame, hout] at hheld
    exact hheld hg'
  · rintro u rfl hu
    have hureplaced : u.replaced = true := by cases u <;> first | exact hu | cases hu
    have hfresh := optional_left hu (hbulk f u hureplaced) (haccepts u hureplaced) h hsome
    rw [hfresh]
    exact ⟨fun heq => .inr heq.symm, fun hor =>
      hor.elim (fun hnone => absurd hnone hsome) fun heq => heq.symm⟩

/-- The object that a failing member leaves is the one that its decoder leaves. -/
theorem final_memberRun {i : Nat} {f : Field} {b b₁ : Build σ} {e : Abort}
    (hlen : i < b.out.items.length)
    (h : memberDecoder env r fuel f.info f.ty { b with out := b.out.item i } = .error e b₁) :
    (final (memberRun r (memberDecoder env r fuel) i f b)).out.item i = b₁.out := by
  unfold memberRun
  rw [final_recover, final_inStep]
  unfold onItem
  rw [final_focus, item_setItem, if_pos ⟨rfl, hlen⟩, h]
  rfl

theorem left_members {fuel : Nat} {s : StructDef} {ignoreKey : Bytes} {i : Nat} {f : Field}
    {b b₀ : Build σ} (h : OnlyFailed env r fuel s ignoreKey i f b b₀) (ht : f.ty.replaced = true)
    (hbulk : ∀ f t, t.replaced = true → r.traits.bulkRange f t = false)
    (haccepts : ∀ t, t.replaced = true → r.traits.acceptsBulkRange t = false)
    (hlen : i < b.out.items.length) :
    Left env f.ty (begun env r fuel f.info f.ty { b₀ with out := b.out.item i }) (b.out.item i)
      ((final (decodeMembers r fuel (memberDecoder env r fuel) s ignoreKey b)).out.item i) := by
  obtain ⟨e, b₁, hfails⟩ := h.fails
  obtain ⟨hsame, hitem⟩ := decodeMembers_single h.field h.decoded h.single
  rw [hitem, final_memberRun (hsame.2 ▸ hlen) hfails]
  rw [hsame.1] at hfails
  exact left_fieldValue ht hbulk haccepts hfails

/-- A struct that is not transparent, as the document. -/
theorem final_decode_struct {fuel id : Nat} (hkeyed : (env.structs id).transparent = false)
    (hbulk : r.traits.bulkRange noField (.struct id) = false)
    (haccepts : r.traits.acceptsBulkRange (.struct id) = false)
    {b b₁ : Build σ}
    (htags : decodeTags r noField (r.traits.expectedTags env noField (.struct id)) b = .ok () b₁) :
    (final (decode env r (fuel + 1) (.struct id) b)).out =
      (final (decodeMembers r fuel (memberDecoder env r fuel) (env.structs id) [] b₁)).out := by
  have hmembers : decodeValue env r (fuel + 1) noField (.struct id) =
      decodeMembers r fuel (memberDecoder env r fuel) (env.structs id) [] := by
    rw [decodeValue]
    unfold decodeStruct
    rw [hkeyed]
    rfl
  have hplain : ∀ u, Ty.struct id ≠ .optional u := by
    intro u hu
    cases hu
  have hrun : decodeFieldValue env r (decodeValue env r (fuel + 1) noField) noField (.struct id) b =
      decodeMembers r fuel (memberDecoder env r fuel) (env.structs id) [] b₁ := by
    rw [decodeFieldValue_plain hplain hbulk haccepts, Run.bind_of_ok htags, hmembers]
  have hmap :=
    final_mapError (decodeFieldValue env r (decodeValue env r (fuel + 1) noField) noField
    (.struct id)) b
    (g := Error.finalize)
  rw [← hrun, ← hmap]
  unfold decode
  cases mapError Error.finalize
    (decodeFieldValue env r (decodeValue env r (fuel + 1) noField) noField (.struct id)) b with
  | ok a b' => cases r.errors <;> rfl
  | error e b' => cases r.errors <;> rfl

/-- Every failed member of a struct that `r` decodes, as a document or within one. -/
def LeavesFailed (env : Env) (r : Reader σ S M) : Prop :=
  ∀ fuel s ignoreKey i f b b₀, OnlyFailed env r fuel s ignoreKey i f b b₀ → f.ty.replaced = true →
    i < b.out.items.length →
    Left env f.ty (begun env r fuel f.info f.ty { b₀ with out := b.out.item i }) (b.out.item i)
      ((final (decodeMembers r fuel (memberDecoder env r fuel) s ignoreKey b)).out.item i)

/-- Every failed member of the struct that the document is, in the value that is returned. -/
def ReturnsFailed (env : Env) (r : Reader σ S M) (start : σ) (fuel id : Nat) (value : Val) : Prop :=
  ∀ i f b b₀, (env.structs id).transparent = false →
    decodeTags r noField (r.traits.expectedTags env noField (.struct id))
      { reader := start, out := (Ty.struct id).zero env } = .ok () b →
    OnlyFailed env r fuel (env.structs id) [] i f b b₀ → f.ty.replaced = true →
    Left env f.ty (begun env r fuel f.info f.ty { b₀ with out := f.initial }) f.initial
      (value.item i)

theorem returns_of_leaves (hleaves : LeavesFailed env r) {start : σ} {fuel id : Nat}
    (hbulk : r.traits.bulkRange noField (.struct id) = false)
    (haccepts : r.traits.acceptsBulkRange (.struct id) = false) :
    ReturnsFailed env r start fuel id
      (final (decode env r (fuel + 1) (.struct id)
        { reader := start, out := (Ty.struct id).zero env })).out := by
  intro i f b b₀ hkeyed htags hfailed ht
  have hout : b.out = (Ty.struct id).zero env := by
    have hsame : (final (decodeTags r noField (r.traits.expectedTags env noField (.struct id))
        { reader := start, out := (Ty.struct id).zero env })).out = (Ty.struct id).zero env :=
          leaves_decodeTags frame_eq noField _ _
    rw [htags] at hsame
    exact hsame
  have hitems : b.out.items = (env.structs id).fields.map Field.initial := by rw [hout]; rfl
  have hi : i < (env.structs id).fields.length := (List.getElem?_eq_some_iff.1 hfailed.field).1
  have hitem : b.out.item i = f.initial := by
    unfold Val.item
    rw [hitems, List.getD_eq_getElem?_getD, List.getElem?_map, hfailed.field]
    rfl
  have hleft := hleaves fuel _ _ i f b b₀ hfailed ht (by rw [hitems, List.length_map]; exact hi)
  rw [hitem] at hleft
  rw [final_decode_struct hkeyed hbulk haccepts htags]
  exact hleft

namespace Cbor

/-- The reader of `decode_all`. -/
def collectingReader (env : Env) (o : Options) (t : Ty) (inp : Bytes) :
    Reader State SeqCursor MapCursor :=
  reader env { withTypeDeterminism o (isDeterministicType env t) with errors := .collect } inp

theorem typedArrayRange_replaced {t : Ty} (ht : t.replaced = true) : typedArrayRange t = false := by
  cases t with
  | seq _ _ | array _ _ => cases ht
  | _ => rfl

theorem leavesFailed (env : Env) (o : Options) (t : Ty) (inp : Bytes) :
    LeavesFailed env (collectingReader env o t inp) := by
  intro fuel s ignoreKey i f b b₀ hfailed ht hlen
  refine left_members hfailed ht (fun f t ht => ?_) (fun t ht => typedArrayRange_replaced ht) hlen
  show (f.typedArray && typedArrayRange t) = false
  rw [typedArrayRange_replaced ht, Bool.and_false]

end Cbor

namespace Json

/-- The reader of `decode_all`. -/
def collectingReader (o : Options) (cc : Charconv) (inp : Bytes) : Reader State Cursor Cursor :=
  reader { o with errors := .collect } cc inp

theorem leavesFailed (env : Env) (o : Options) (cc : Charconv) (inp : Bytes) :
    LeavesFailed env (collectingReader o cc inp) :=
  fun _ _ _ _ _ _ _ hfailed ht hlen => left_members hfailed ht (fun _ _ _ => rfl)
    (fun _ _ => rfl) hlen

end Json

/-- A failed member of a struct keeps its default-constructed value if its decoder has begun no new
object there, and has another value if the decoder has begun what the member did not hold. -/
theorem failed_members (env : Env) (inp : Bytes) :
    (∀ o t, LeavesFailed env (Cbor.collectingReader env o t inp)) ∧
    (∀ o fuel id c, Cbor.decodeAll env o (fuel + 1) (.struct id) inp = .ok c →
      ReturnsFailed env (Cbor.collectingReader env o (.struct id) inp) (Cbor.start inp {}) fuel id
        c.value) ∧
    (∀ o cc, LeavesFailed env (Json.collectingReader o cc inp)) ∧
    ∀ o cc fuel id c, Json.decodeAll env o cc (fuel + 1) (.struct id) inp = .ok c →
      ReturnsFailed env (Json.collectingReader o cc inp) {} fuel id c.value := by
  refine ⟨fun o t => Cbor.leavesFailed env o t inp, fun o fuel id c h => ?_,
    fun o cc => Json.leavesFailed env o cc inp,
    fun o cc fuel id c h => ?_⟩
  · rw [Cbor.decodeAll_eq] at h
    rw [value_gather h]
    exact returns_of_leaves (Cbor.leavesFailed env o _ inp) rfl rfl
  · rw [Json.decodeAll_eq] at h
    rw [value_gather h]
    exact returns_of_leaves (Json.leavesFailed env o cc inp) rfl rfl

/-- `std::optional<std::uint8_t> x` -/
def slot : Field where
  info := { isMember := true, identifier := str "x" }
  ty := .optional (.int uint8)
  wireName := str "x"
  required := false
  initial := .null

def slotEnv : Env :=
  { (default : Env) with structs := fun _ => { name := str "slot", fields := [slot] } }

/-- `{"x":"y"}` -/
def misfit : Bytes := [0x7B, 0x22, 0x78, 0x22, 0x3A, 0x22, 0x79, 0x22, 0x7D]

/-- Run the struct on the document. -/
def slotVisits : List (Build Json.State) :=
  memberVisits (Json.collectingReader {} Json.noCharconv misfit) 8
    (memberDecoder slotEnv (Json.collectingReader {} Json.noCharconv misfit) 8)
    (slotEnv.structs 0) [] 0 { reader := {}, out := (Ty.struct 0).zero slotEnv }

theorem slotVisits_fail : slotVisits.length = 1 ∧ slotVisits.all (fun b₀ =>
    match memberDecoder slotEnv (Json.collectingReader {} Json.noCharconv misfit) 8 slot.info
      slot.ty
      { b₀ with out := b₀.out.item 0 } with
    | .ok _ _ => false
    | .error _ _ => true) = true := by
  decide +kernel

theorem exists_slotFailed :
    ∃ b₀, OnlyFailed slotEnv (Json.collectingReader {} Json.noCharconv misfit) 8
    (slotEnv.structs 0) [] 0 slot
      { reader := {}, out := (Ty.struct 0).zero slotEnv } b₀ := by
  obtain ⟨hsingle, hfails⟩ := slotVisits_fail
  obtain ⟨b₀, hvisits⟩ := List.length_eq_one_iff.1 hsingle
  rw [hvisits, List.all_cons, List.all_nil, Bool.and_true] at hfails
  refine ⟨b₀, rfl, rfl, hvisits, ?_⟩
  cases hrun : memberDecoder slotEnv (Json.collectingReader {} Json.noCharconv misfit) 8 slot.info
    slot.ty { b₀ with out := b₀.out.item 0 } with
  | ok u b₁ =>
    rw [hrun] at hfails
    cases hfails
  | error e b₁ => exact ⟨e, b₁, rfl⟩

theorem slot_decoded : (match Json.decodeAll slotEnv {} Json.noCharconv 9 (.struct 0) misfit with
    | .ok c =>
      match c.value.item 0 with
      | .some (.int i) => decide (c.errors.length = 1 ∧ i = 0)
      | _ => false
    | .error _ => false) = true := by
  decide +kernel

theorem exists_slotRun : ∃ c, Json.decodeAll slotEnv {} Json.noCharconv 9 (.struct 0) misfit =
    .ok c ∧ c.errors.length = 1 ∧
    c.value.item 0 = .some (.int 0) := by
  have hzero := slot_decoded
  cases hrun : Json.decodeAll slotEnv {} Json.noCharconv 9 (.struct 0) misfit with
  | error a =>
    rw [hrun] at hzero
    cases hzero
  | ok c =>
    rw [hrun] at hzero
    simp only at hzero
    split at hzero
    · rename_i i hitem
      obtain ⟨hcount, rfl⟩ := of_decide_eq_true hzero
      exact ⟨c, rfl, hcount, hitem⟩
    · cases hzero

/-- The member was empty, and holds zero. -/
theorem failed_optional_emplaced :
    ∃ c b₀, Json.decodeAll slotEnv {} Json.noCharconv 9 (.struct 0) misfit = .ok c ∧
    OnlyFailed slotEnv (Json.collectingReader {} Json.noCharconv misfit) 8 (slotEnv.structs 0) [] 0
      slot
      { reader := {}, out := (Ty.struct 0).zero slotEnv } b₀ ∧
    slot.initial = .null ∧ c.value.item 0 = .some (.int 0) := by
  obtain ⟨b₀, hfailed⟩ := exists_slotFailed
  obtain ⟨c, hrun, -, hitem⟩ := exists_slotRun
  exact ⟨c, b₀, hrun, hfailed, rfl, hitem⟩

/-- Something other than a null was ahead. -/
theorem failed_members_slot : ∃ c, ∃ b₀ :
    Build Json.State, Json.decodeAll slotEnv {} Json.noCharconv 9 (.struct 0) misfit = .ok c ∧
    Left slotEnv slot.ty
      (begun slotEnv (Json.collectingReader {} Json.noCharconv misfit) 8 slot.info slot.ty
      { b₀ with out := .null }) .null
      (c.value.item 0) := by
  obtain ⟨b₀, hfailed⟩ := exists_slotFailed
  obtain ⟨c, hrun, -, -⟩ := exists_slotRun
  exact ⟨c, b₀, hrun, (failed_members slotEnv misfit).2.2.2 {} Json.noCharconv 8 0 c hrun 0 slot _
    b₀ rfl rfl hfailed rfl⟩

end VCodec
