import VCodec.Core.Types

/-!
# Names

A wire name or an alias to the index of its member, the text of an enumerator to its place in the
table, an unknown key to the name that it was likely meant to be.
-/

namespace VCodec

/-- The member that a text key names, by its wire name or an alias. -/
def StructDef.find (s : StructDef) (key : Bytes) : Option Nat :=
  s.fields.findIdx? fun f => f.wireName = key ∨ key ∈ f.aliases

/-- The enumerator that a text names. A skipped one has no name. -/
def EnumDef.find (e : EnumDef) (text : Bytes) : Option Enumerator :=
  e.enumerators.find? fun en => ¬ en.skipped ∧ (en.name = text ∨ text ∈ en.aliases)

/-- A row of the table of edit distances: `prev` is the row above, `left` the entry to the left. -/
def levenshteinRow (c : UInt8) : Nat → Bytes → List Nat → List Nat
  | left, x :: a, p :: q :: prev =>
    let v := min (min (q + 1) (left + 1)) (p + if x = c then 0 else 1)
    v :: levenshteinRow c v a (q :: prev)
  | _, _, _ => []

def levenshteinRows (a : Bytes) : Nat → Bytes → List Nat → List Nat
  | _, [], prev => prev
  | j, c :: b, prev => levenshteinRows a (j + 1) b (j :: levenshteinRow c j a prev)

def levenshtein (a b : Bytes) : Nat :=
  let (a, b) := if b.length < a.length then (b, a) else (a, b)
  (levenshteinRows a 1 b (List.range (a.length + 1))).getLastD 0

/-- The wire name nearest to the key, if it is at most two edits away. -/
def suggest (key : Bytes) (fields : List Field) : Bytes :=
  (fields.foldl (fun (best : Bytes × Nat) f =>
    if f.skipDeserializing then best
    else
      let d := levenshtein key f.wireName
      if d < best.2 then (f.wireName, d) else best) ([], 3)).1

example : levenshtein (str "colour") (str "color") = 1 := by decide

/-! ### Alternatives of variants -/

def variantValueKey : Bytes := str "value"

/-- `internally_tagged`: a struct that has an object of its own to carry the discriminator. -/
def internallyTagged (env : Env) (t : Ty) : Option StructDef :=
  match t with
  | .struct id => if (env.structs id).transparent then none else some (env.structs id)
  | _ => none

theorem internallyTagged_eq_some
    {env : Env} {t : Ty} {d : StructDef} (h : internallyTagged env t = some d) :
    ∃ id, t = .struct id ∧ d = env.structs id ∧ d.transparent = false := by
  unfold internallyTagged at h
  split at h
  · split at h
    · cases h
    · rename_i hplain
      cases h
      exact ⟨_, rfl, rfl, Bool.not_eq_true _ ▸ hplain⟩
  · cases h

end VCodec
