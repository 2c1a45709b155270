import VCodec.Json.Excerpt
import VCodec.Json.Reports
import VCodec.Render

/-!
# Framed reports

`render_framed` puts the headline and the path of an error above an excerpt of the input, or above
what else there is to say. An error that a JSON entry point hands out can be rendered over the input
that it came from, whatever the input, and the excerpt is of the line that the error's position
names.
-/

namespace VCodec.Render

/-! ### The report -/

/-- The codes whose report shows the input. -/
def excerpted : Errc → Bool
  | .missingField | .missingTag | .unknownField | .unknownEnumerator | .noVariantAlternative | .outOfRange => false
  | _ => true

def renderFramed (e : Error) (input : Bytes) : Scan Bytes :=
  let out := heading e
  match e.code with
  | .missingField | .missingTag =>
    return out ++ str "   |  object begins at byte offset " ++
      decimal (e.containerOffset.getD e.offset) ++ [0x0A]
  | .unknownField => return out ++ noteUnknown e
  | .unknownEnumerator | .noVariantAlternative => return out ++ noteCandidates e
  | .outOfRange => return out
  | _ => do
    let out ← (if input = [] then pure out else renderExcerpt out e input : Scan Bytes)
    return out ++ noteSuggestion e

variable {e : Error} {input : Bytes}

/-- The report of an error that shows the input. -/
theorem renderFramed_excerpted (he : excerpted e.code = true) :
    renderFramed e input = do
      let out ← (if input = [] then pure (heading e) else renderExcerpt (heading e) e input : Scan
        Bytes)
      return out ++ noteSuggestion e := by
  unfold renderFramed
  cases hcode : e.code <;> rw [hcode] at he <;> first | rfl | cases he

theorem renderFramed_plain (he : excerpted e.code = false) :
    ∃ notes, renderFramed e input = .ok (heading e ++ notes) := by
  unfold renderFramed
  cases hcode : e.code <;> rw [hcode] at he <;> cases he
  case missingField | missingTag =>
    exact ⟨_, congrArg Except.ok ((List.append_assoc _ _ _).trans (List.append_assoc _ _ _))⟩
  case unknownField | unknownEnumerator | noVariantAlternative => exact ⟨_, rfl⟩
  case outOfRange => exact ⟨[], congrArg Except.ok (List.append_nil _).symm⟩

end VCodec.Render

namespace VCodec.Json

open Render (Line)

/-! ### The position of an offset -/

/-- The position behind a byte. -/
def LineCol.pass (lc : LineCol) (c : UInt8) : LineCol :=
  if c = 0x0A then ⟨lc.line + 1, 1⟩ else ⟨lc.line, lc.column + 1⟩

theorem lineCol_eq (inp : Bytes) (off : Nat) :
    lineCol inp off = (inp.take off).foldl LineCol.pass ⟨1, 1⟩ := rfl

theorem foldl_pass_line (bs : Bytes) (lc : LineCol) :
    (bs.foldl LineCol.pass lc).line = lc.line + bs.count 0x0A := by
  induction bs generalizing lc with
  | nil => rfl
  | cons b bs ih =>
    rw [List.foldl_cons, ih, LineCol.pass]
    split
    · rename_i hb
      rw [hb, List.count_cons_self]
      exact Nat.add_right_comm _ _ _
    · rename_i hb
      rw [List.count_cons_of_ne hb]

theorem foldl_pass_plain {bs : Bytes} (h : ∀ b ∈ bs, b ≠ 0x0A) (lc : LineCol) :
    bs.foldl LineCol.pass lc = ⟨lc.line, lc.column + bs.length⟩ := by
  induction bs generalizing lc with
  | nil => rfl
  | cons b bs ih =>
    rw [List.foldl_cons, LineCol.pass, if_neg (h b List.mem_cons_self),
      ih fun b hb => h b (List.mem_cons_of_mem _ hb),
      List.length_cons, Nat.add_right_comm]
    rfl

/-- Where a line begins. -/
theorem foldl_pass_front {inp : Bytes} {start : Nat} (h : start = 0 ∨ inp[start - 1]? = some 0x0A) :
    (inp.take start).foldl LineCol.pass ⟨1, 1⟩ = ⟨(inp.take start).count 0x0A + 1, 1⟩ := by
  rcases h with rfl | h
  · rfl
  · cases start with
    | zero => rfl
    | succ n =>
      have htake : inp.take (n + 1) = inp.take n ++ [0x0A] := by
        rw [List.take_add_one]
        exact congrArg (inp.take n ++ Option.toList ·) h
      have hline := foldl_pass_line (inp.take n) ⟨1, 1⟩
      rw [htake, List.foldl_append, List.foldl_cons, List.foldl_nil, LineCol.pass, if_pos rfl,
        hline, List.count_append]
      exact congrArg (LineCol.mk · 1) (congrArg (· + 1) (Nat.add_comm 1 _))

/-- The line and the column of an offset, from the line that it lies in. -/
theorem lineCol_of_line {inp : Bytes} {start stop off : Nat} (h : Line inp start stop off) :
    lineCol inp off = ⟨(inp.take start).count 0x0A + 1, off - start + 1⟩ := by
  have hlen := h.le_stop.trans h.stop_le
  have hsplit : inp.take off = inp.take start ++ (inp.drop start).take (off - start) := by
    rw [← List.take_add, Nat.add_sub_cancel' h.start_le]
  have hplain : ∀ b ∈ (inp.drop start).take (off - start), b ≠ 0x0A := by
    rintro b hb rfl
    obtain ⟨k, hk⟩ := List.mem_iff_getElem?.1 hb
    rw [List.getElem?_take] at hk
    split at hk
    · rename_i hlt
      rw [List.getElem?_drop] at hk
      exact h.inside (start + k) (Nat.le_add_right _ _) (by have := h.le_stop; omega) hk
    · cases hk
  rw [lineCol_eq, hsplit, List.foldl_append, foldl_pass_front h.before, foldl_pass_plain hplain,
    List.length_take, List.length_drop,
    min_eq_left (by omega), Nat.add_comm 1]

/-! ### Reports about an input -/

open Render (heading picture noteSuggestion excerpted renderFramed)

/-- The text is the report of the error, and its excerpt is of the line and the column that the
error names. -/
structure Depicted (inp : Bytes) (e : Error) (text : Bytes) : Prop where
  rendered : renderFramed e inp = .ok text
  headed : (heading e).IsPrefix text
  excerpt : excerpted e.code = true → inp ≠ [] → ∃ x, Render.excerpt e inp = .ok x ∧
    x.Framed inp e.offset ∧
    e.position = some ⟨(inp.take x.lineStart).count 0x0A + 1, e.offset - x.lineStart + 1⟩ ∧
    text = heading e ++ picture x e inp ++ noteSuggestion e

theorem exists_depicted {inp : Bytes} (hsize : inp.length < 2 ^ 63) {e : Error}
    (he : e.Reported (ground inp)) :
    ∃ text, Depicted inp e text := by
  cases hcode : excerpted e.code with
  | false =>
    obtain ⟨notes, hrun⟩ := Render.renderFramed_plain hcode
    exact ⟨_, hrun, ⟨notes, rfl⟩, fun h => Bool.noConfusion (hcode.symm.trans h)⟩
  | true =>
    have hrun : renderFramed e inp = _ := Render.renderFramed_excerpted hcode
    by_cases hinp : inp = []
    · rw [if_pos hinp] at hrun
      exact ⟨_, hrun, ⟨_, rfl⟩, fun _ hne => absurd hinp hne⟩
    · have hspan : e.offset + e.length ≤ inp.length := he.1.extent
      obtain ⟨x, hx, hframed⟩ := Render.excerpt_ok hsize he.1.inside (by omega)
      rw [if_neg hinp, Render.bind_ok (Render.renderExcerpt_eq (heading e) hx hframed)] at hrun
      refine ⟨_, hrun, ⟨picture x e inp ++ noteSuggestion e, (List.append_assoc _ _ _).symm⟩,
        fun _ _ => ⟨x, hx, hframed, ?_, rfl⟩⟩
      rw [he.1.placed]
      exact congrArg some (lineCol_of_line hframed.line)

/-- Whatever error an entry point hands out, its report over the input is rendered without a
fault. -/
theorem errors_are_depicted (env : Env) (o : Options) (cc : Charconv) (inp : Bytes) (fuel : Nat)
    (t : Ty) (out : Val) (hsize : inp.length < 2 ^ 63) :
    (∀ e, decode env o cc fuel t inp = .error (.error e) → ∃ text, Depicted inp e text) ∧
      (∀ e out', decodeInto env o cc fuel t inp out = .error (.error e) out' →
        ∃ text, Depicted inp e text) ∧
      ∀ c, decodeAll env o cc fuel t inp = .ok c → ∀ e ∈ c.errors, ∃ text, Depicted inp e text :=
  ⟨fun _ h => exists_depicted hsize (HandedOut.decode h).reported,
    fun _ _ h => exists_depicted hsize (HandedOut.decodeInto h).reported,
    fun _ h _ he => exists_depicted hsize (HandedOut.decodeAll h he).reported⟩

theorem errors_are_depicted_number :
    ∃ text, Depicted (str "[true,\n 7]")
      { code := .typeMismatch, offset := 8, length := 1, position := some ⟨2, 2⟩,
        steps := [.index 1], finalized := true
        expected := str "boolean", found := str "number" } text :=
  (errors_are_depicted default {} ⟨fun _ => none, fun _ => []⟩ (str "[true,\n 7]") 8
    (.seq .vector .bool) .null (by decide)).1 _ (by rfl)

end VCodec.Json
