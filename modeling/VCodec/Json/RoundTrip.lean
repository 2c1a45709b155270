import VCodec.Core.Span
import VCodec.Json.Fits
import VCodec.Json.Landing

/-!
# Decoding what was encoded

A text of the document of a value, with blanks wherever they may stand, is read back as that value
exactly if every part of the value comes back from its own document. The writer makes one such text
for each of its options.
-/

namespace VCodec.Json

open D

/-! ### Texts of a document -/

/-- A layout of the document, between blanks. -/
def Rendered (o : Options) (cc : Charconv) (d : Doc) (bs : Bytes) : Prop :=
  ∃ ws v ws', Blank ws ∧ Layout o cc 0 d v ∧ Blank ws' ∧ bs = ws ++ (v ++ ws')

section

variable {o p D : Options} {cc : Charconv} {d : Doc} {bs v : Bytes}

theorem uncut_blank {ws : Bytes} (hws : Blank ws) (v : Bytes) : Uncut v ws := by
  cases ws with
  | nil => exact fun n _ => n.ends_nil
  | cons c cs => exact Delimits.uncut ⟨c, cs, rfl, .inl (hws c List.mem_cons_self)⟩ v

theorem rendered_print (o p : Options) (cc : Charconv) {d : Doc} (h : Legible o 0 d) :
    Rendered o cc d (print p cc 0 d) :=
  ⟨[], _, [], blank_nil, print_lays o p cc 0 d h, blank_nil, (List.append_nil _).symm⟩

/-- The document stands at the start, and only blanks follow it. -/
theorem Rendered.lies (hprints : cc.Prints) (h : Rendered o cc d bs) :
    ∃ u, DocAt o cc bs d {} u ∧ ∀ t : State, Beside bs t u → (t.skipped bs).pos = bs.length := by
  obtain ⟨ws, v, ws', hws, hv, hws', rfl⟩ := h
  obtain ⟨x, hx⟩ := layout_value hprints hv
  have hdrop : (ws ++ (v ++ ws')).drop ({} : State).pos = ws ++ (v ++ ws') := rfl
  obtain ⟨hskip, hrest⟩ := (hx.begins.append ws').skipped hws hdrop
  have hpass : Passes (ws ++ (v ++ ws')) (State.skipped (ws ++ (v ++ ws')) {})
    ((({} : State).advance ws.length).advance v.length) v := by
    rw [hskip]
    exact .advance hrest
  have hend : (ws ++ (v ++ ws')).drop ((({} : State).advance ws.length).advance v.length).pos =
    ws' := drop_add_of hrest
  have hend' := hend.trans (List.append_nil ws').symm
  refine ⟨_, ⟨Nat.zero_le _, v, hv, hpass, ?_⟩, fun t ht => ?_⟩
  · rw [hend]
    exact uncut_blank hws' v
  · rw [ht.1, skipped_eq hws' hend' fun c hc => by cases hc]
    simp [State.advance, Nat.add_assoc]

end

/-! ### Construction -/

section

variable {env : Env} {D : Options} {cc : Charconv} {t : Ty} {v old : Val} {d : Doc} {bs : Bytes}

/-- Construction of a value of the type from a whole input. -/
abbrev construct (env : Env) (D : Options) (cc : Charconv) (inp : Bytes) (fuel : Nat) (t : Ty)
    (old : Val) :
    EStateM.Result Abort (Build State) Unit :=
  decodeFieldValue env (reader D cc inp) (decodeValue env (reader D cc inp) fuel noField) noField t
    { reader := {}, out := old }

/-- With every bound that is large enough, construction leaves only blanks and returns the value. -/
def Constructs (env : Env) (D : Options) (cc : Charconv) (inp : Bytes) (t : Ty) (old v : Val) :
    Prop :=
  ∃ n, ∀ fuel, n ≤ fuel → ∃ b, construct env D cc inp fuel t old = .ok () b ∧
    inp.length ≤ (b.reader.skipped inp).pos ∧
    Like env t v b.out

/-- What the schemas of a program keep to. -/
structure Program (env : Env) : Prop where
  regular : env.Regular
  vetted : Vetted env format

/-- A library for numbers that reads every literal rightly, and prints shortest ones. -/
structure Numbers (cc : Charconv) : Prop where
  correct : cc.Correct
  prints : cc.Prints

/-- A text of the document of a value is read back as the value exactly if every part comes back. -/
theorem constructs_iff (hp : Program env) (hcc : Numbers cc) (ha : Addressable D bs)
    (herrors : D.errors = .failFast) (hd : lowerTop env traits declared t v = some d)
    (hbs : Rendered D cc d bs) (hv : Proper env noField t v) (hclear : Clear env format noField t v)
    (hold : Shaped env t old) :
    Constructs env D cc bs t old v ↔ KeptMember env format everything noField t old v := by
  obtain ⟨u, hlies, hend⟩ := hbs.lies hcc.prints
  obtain ⟨n₀, hread⟩ :=
    reads_top (L := docLaws env ha herrors hcc.correct hcc.prints) hp.regular hp.vetted hv hclear
    hold hd
  have hlands := hread _ _ hlies
  constructor
  · rintro ⟨n, hruns⟩
    obtain ⟨b, hrun, -, hlike⟩ := hruns n le_rfl
    exact (hlands.ends n b hrun).2.1 hlike
  · refine fun hkept => ⟨n₀, fun fuel hle => ?_⟩
    obtain ⟨b, hrun⟩ := hlands.returns hkept fuel hle
    obtain ⟨hsame, hlike⟩ := hlands.ends fuel b hrun
    exact ⟨b, hrun, (hend b.reader hsame).ge, hlike.2 hkept⟩

/-! ### The entry points -/

/-- With every bound that is large enough, `decode` returns the value. -/
def Recovers (env : Env) (D : Options) (cc : Charconv) (t : Ty) (bs : Bytes) (v : Val) : Prop :=
  ∃ n, ∀ fuel, n ≤ fuel → ∃ w, Json.decode env D cc fuel t bs = .ok w ∧ Like env t v w

/-- With every bound that is large enough, `decode_into` leaves the value. -/
def RecoversInto (env : Env) (D : Options) (cc : Charconv) (t : Ty) (bs : Bytes) (old v : Val) :
    Prop :=
  ∃ n, ∀ fuel, n ≤ fuel → ∃ w, Json.decodeInto env D cc fuel t bs old = .ok () w ∧ Like env t v w

theorem conclude_ok_iff (herrors : D.errors = .failFast) {b : Build State} {w : Val} :
    conclude D bs b = .ok w ↔ bs.length ≤ (b.reader.skipped bs).pos ∧ b.out = w := by
  have hfinish : finish bs b.reader = if (b.reader.skipped bs).pos < bs.length
      then .error ((error bs .trailingContent (b.reader.skipped bs).pos).withLength 1)
        (b.reader.skipped bs)
      else .ok () (b.reader.skipped bs) := by
    rw [finish, Run.bind_of_ok (skipWs_run b.reader), Run.bind_of_ok (Run.get_apply _),
      Run.ite_apply]
    rfl
  unfold conclude
  rw [if_neg (by rw [herrors]; exact ErrorMode.noConfusion), hfinish]
  by_cases hpos : (b.reader.skipped bs).pos < bs.length
  · rw [if_pos hpos]
    exact iff_of_false (fun h => by cases h) fun h => absurd h.1 (by omega)
  · rw [if_neg hpos]
    exact ⟨fun h => ⟨by omega, by cases h; rfl⟩, fun h => congrArg Except.ok h.2⟩

theorem decodeInto_ok_iff (herrors : D.errors = .failFast) {fuel : Nat} {w : Val} :
    Json.decodeInto env D cc fuel t bs old = .ok () w ↔
      ∃ b, construct env D cc bs fuel t old = .ok () b ∧ bs.length ≤ (b.reader.skipped bs).pos ∧
        b.out = w := by
  have hmode : (reader D cc bs).errors = .failFast := herrors
  unfold Json.decodeInto VCodec.decode
  simp only [hmode]
  constructor
  · intro h
    split at h
    · rename_i b hrun
      split at h
      · rename_i hdone
        cases h
        split at hrun
        · rename_i b' hconstruct
          cases hrun
          rw [mapError_eq_ok] at hconstruct
          exact ⟨b, hconstruct, (conclude_ok_iff herrors).1 hdone⟩
        · cases hrun
      · cases h
    · cases h
  · rintro ⟨b, hconstruct, hdone⟩
    have hrun := (mapError_eq_ok (f := Error.finalize)).2 hconstruct
    rw [hrun]
    simp only [(conclude_ok_iff herrors).2 hdone]

theorem decode_ok_iff {fuel : Nat} {w : Val} :
    Json.decode env D cc fuel t bs = .ok w ↔
      Json.decodeInto env D cc fuel t bs (t.zero env) = .ok () w := by
  unfold Json.decode Json.decodeInto
  split
  · split
    · rename_i hdone
      rw [hdone]
      simp
    · rename_i hfail
      rw [hfail]
      simp
  · simp

theorem recoversInto_iff (herrors : D.errors = .failFast) :
    RecoversInto env D cc t bs old v ↔ Constructs env D cc bs t old v := by
  refine exists_congr fun n => forall_congr' fun fuel => imp_congr_right fun _ => ?_
  constructor
  · rintro ⟨w, hrun, hlike⟩
    obtain ⟨b, hconstruct, hpos, rfl⟩ := (decodeInto_ok_iff herrors).1 hrun
    exact ⟨b, hconstruct, hpos, hlike⟩
  · rintro ⟨b, hconstruct, hpos, hlike⟩
    exact ⟨b.out, (decodeInto_ok_iff herrors).2 ⟨b, hconstruct, hpos, rfl⟩, hlike⟩

theorem recovers_iff : Recovers env D cc t bs v ↔ RecoversInto env D cc t bs (t.zero env) v :=
  exists_congr fun _ => forall_congr' fun _ => imp_congr_right fun _ =>
    exists_congr fun _ => and_congr_left fun _ => decode_ok_iff

end

end VCodec.Json
