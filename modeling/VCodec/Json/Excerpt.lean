import VCodec.Core.KeyFind

/-!
# Source excerpts

`render_excerpt` with every access to the input checked, every unsigned sum and difference checked
for wrapping, and every loop bounded. It always returns: the window lies inside the line of the
error, around its offset, and the carets stand under the window.
-/

namespace VCodec.Render

/-! ### Checked runs -/

/-- What rendering may not do: wrap, read outside the input, or run on for ever. -/
inductive Stop
  | fault (f : Fault)
  | endless
  deriving DecidableEq, Repr

abbrev Scan := Except Stop

/-- `a + b` of `std::size_t`. -/
def addSize (a b : Nat) : Scan Nat :=
  if a + b < 2 ^ 64 then .ok (a + b) else .error (.fault .overflow)

/-- `a - b` of `std::size_t`. -/
def subSize (a b : Nat) : Scan Nat := if b ≤ a then .ok (a - b) else .error (.fault .overflow)

/-- `input[i]`. -/
def byteAt (input : Bytes) (i : Nat) : Scan UInt8 := (readAt input i).mapError .fault

/-! ### The window -/

def ellipsis : Bytes := [0xE2, 0x80, 0xA6]

def excerptScanLimit : Nat := 96

def isWs (c : UInt8) : Bool := c = 0x20 ∨ c = 0x09 ∨ c = 0x0D

section

variable (input : Bytes)

/-- The backslashes in front of `j`. -/
def countBackslashes (j : Nat) : Nat → Nat → Scan Nat
  | 0, _ => .error .endless
  | n + 1, bs =>
    if bs < j then do
      let k ← subSize j 1
      let k ← subSize k bs
      let c ← byteAt input k
      if c = 0x5C then countBackslashes j n (bs + 1) else return bs
    else return bs

def findQuote (floor : Nat) : Nat → Nat → Scan Nat
  | 0, _ => .error .endless
  | n + 1, j =>
    if floor < j then do
      let j ← subSize j 1
      let c ← byteAt input j
      if c = 0x22 then do
        let bs ← countBackslashes input j (j + 1) 0
        if bs % 2 = 0 then return j else findQuote floor n j
      else findQuote floor n j
    else return floor

/-- Back over a string literal that ends in front of `i`, but not beyond `floor`. -/
def stringStartBefore (i floor : Nat) : Scan Nat := do
  let j ← subSize i 1
  findQuote input floor (j + 1) j

/-- Back over the siblings at the depth of the token, up to the second comma or the open bracket. -/
def scanBack (floor : Nat) : Nat → Nat → Int → Nat → Scan Nat
  | 0, _, _, _ => .error .endless
  | n + 1, i, depth, seps =>
    if floor < i then do
      let k ← subSize i 1
      let c ← byteAt input k
      if c = 0x22 then do
        let i ← stringStartBefore input i floor
        scanBack floor n i depth seps
      else if c = 0x7D ∨ c = 0x5D then scanBack floor n k (depth + 1) seps
      else if c = 0x7B ∨ c = 0x5B then
        if depth = 0 then return i else scanBack floor n k (depth - 1) seps
      else if c = 0x2C ∧ depth = 0 then
        if seps + 1 = 2 then return i else scanBack floor n k depth (seps + 1)
      else scanBack floor n k depth seps
    else return i

/-- Forward over white space, up to `stop`. -/
def skipWs (stop : Nat) : Nat → Nat → Scan Nat
  | 0, _ => .error .endless
  | n + 1, i =>
    if i < stop then do
      let c ← byteAt input i
      if isWs c then skipWs stop n (i + 1) else return i
    else return i

/-- Back over white space, down to `floor`. -/
def trimWs (floor : Nat) : Nat → Nat → Scan Nat
  | 0, _ => .error .endless
  | n + 1, i =>
    if floor < i then do
      let k ← subSize i 1
      let c ← byteAt input k
      if isWs c then trimWs floor n k else return i
    else return i

/-- How far back `excerpt_start` goes. -/
def scanFloor (offset lineStart : Nat) : Scan Nat := do
  let limit ← addSize lineStart excerptScanLimit
  if limit < offset then subSize offset excerptScanLimit else return lineStart

def excerptStart (offset lineStart : Nat) : Scan Nat := do
  let floor ← scanFloor offset lineStart
  let i ← scanBack input floor (offset + 1) offset 0 0
  skipWs input offset (offset + 1) i

/-- Behind the quote that ends a string, an escape taking two bytes. -/
def skipLiteral (ceil : Nat) : Nat → Nat → Scan Nat
  | 0, _ => .error .endless
  | n + 1, i =>
    if i < ceil then do
      let c ← byteAt input i
      if c = 0x5C then do
        let i ← addSize i 2
        skipLiteral ceil n i
      else if c = 0x22 then return i + 1
      else skipLiteral ceil n (i + 1)
    else return i

/-- Forward over the siblings, down to the second comma or the closing bracket. -/
def scanAhead (ceil : Nat) : Nat → Nat → Int → Nat → Scan Nat
  | 0, _, _, _ => .error .endless
  | n + 1, i, depth, seps =>
    if i < ceil then do
      let c ← byteAt input i
      if c = 0x22 then do
        let i ← skipLiteral input ceil (ceil + 1) (i + 1)
        scanAhead ceil n (if ceil < i then ceil else i) depth seps
      else if c = 0x7B ∨ c = 0x5B then scanAhead ceil n (i + 1) (depth + 1) seps
      else if c = 0x7D ∨ c = 0x5D then
        if depth = 0 then return i else scanAhead ceil n (i + 1) (depth - 1) seps
      else if c = 0x2C ∧ depth = 0 then
        if seps + 1 = 2 then return i else scanAhead ceil n (i + 1) depth (seps + 1)
      else scanAhead ceil n (i + 1) depth seps
    else return i

def excerptEnd (start lineEnd : Nat) : Scan Nat := do
  let limit ← addSize start excerptScanLimit
  let ceil := if limit < lineEnd then limit else lineEnd
  let i ← scanAhead input ceil (ceil + 1) start 0 0
  trimWs input start (i + 1) i

/-- `rfind` of a newline, from `pos` down. -/
def rfindNewline : Nat → Option Nat
  | 0 => if input[0]? = some 0x0A then some 0 else none
  | pos + 1 => if input[pos + 1]? = some 0x0A then some (pos + 1) else rfindNewline pos

/-- `find` of a newline, from `pos` on. -/
def findNewline (pos : Nat) : Option Nat := ((input.drop pos).findIdx? (· = 0x0A)).map (pos + ·)

/-! ### Rendering -/

/-- A byte as the excerpt shows it. -/
def shown (c : UInt8) : UInt8 := if c = 0x09 then 0x20 else if c < 0x20 then 0x3F else c

/-- `n` bytes of the input from `i` on, as they are shown. -/
def showBytes : Nat → Nat → Scan Bytes
  | 0, _ => return []
  | n + 1, i => do
    let c ← byteAt input i
    let rest ← showBytes n (i + 1)
    return shown c :: rest

end

/-- The variables of `render_excerpt`. -/
structure Excerpt where
  lineStart : Nat
  lineEnd : Nat
  start : Nat
  stop : Nat
  cutLeft : Bool
  cutRight : Bool
  /-- How far the carets are indented behind the bar. -/
  col : Nat
  carets : Nat

/-- The length of the token, at least one byte and no more than the input has left. -/
def tokenLength (e : Error) (input : Bytes) (offset : Nat) : Scan Nat := do
  let length := if e.length ≠ 0 then e.length else 1
  let tokenEnd ← addSize offset length
  if input.length < tokenEnd then
    if offset < input.length then subSize input.length offset else return 0
  else return length

def lineStartOf (input : Bytes) (offset : Nat) : Scan Nat :=
  if 0 < offset then do
    let last ← subSize offset 1
    match rfindNewline input last with
    | some nl => return nl + 1
    | none => return 0
  else return 0

/-- An opening bracket shows the whole value. -/
def opensValue (input : Bytes) (offset : Nat) : Scan Bool :=
  if offset < input.length then do
    let c ← byteAt input offset
    return decide (c = 0x5B ∨ c = 0x7B)
  else return false

def caretCount (offset length stop : Nat) : Scan Nat := do
  let carets := if length ≠ 0 then length else 1
  let caretsEnd ← addSize offset carets
  let carets ← (if stop < caretsEnd ∧
    offset < stop then subSize stop offset else pure carets : Scan Nat)
  return if carets = 0 then 1 else carets

def excerpt (e : Error) (input : Bytes) : Scan Excerpt := do
  let offset := if input.length < e.offset then input.length else e.offset
  let length ← tokenLength e input offset
  let lineStart ← lineStartOf input offset
  let lineEnd := (findNewline input offset).getD input.length
  let start ← excerptStart input offset lineStart
  let opener ← opensValue input offset
  let tokenEnd ← addSize offset length
  let stop ← excerptEnd input (if opener then offset else tokenEnd) lineEnd
  let stop := if stop < tokenEnd then tokenEnd else stop
  let stop := if lineEnd < stop then lineEnd else stop
  let firstVisible ← skipWs input offset (offset + 1) lineStart
  let lastVisible ← trimWs input stop (lineEnd + 1) lineEnd
  let shift ← subSize offset start
  let col ← addSize (2 + if firstVisible < start then 1 else 0) shift
  let carets ← caretCount offset length stop
  return {
    lineStart, lineEnd, start, stop, col, carets
    cutLeft := firstVisible < start
    cutRight := stop < lastVisible }

def renderExcerpt (out : Bytes) (e : Error) (input : Bytes) : Scan Bytes := do
  let x ← excerpt e input
  let body ← showBytes input (x.stop - x.start) x.start
  return out ++ str "   |\n   |  " ++ (if x.cutLeft then ellipsis else []) ++ body ++
    (if x.cutRight then ellipsis else []) ++
    str "\n   |" ++ List.replicate x.col 0x20 ++ List.replicate x.carets 0x5E ++
      str " at byte offset " ++ decimal e.offset ++ [0x0A]

/-! ### The scans stay inside the input -/

theorem addSize_eq {a b : Nat} (h : a + b < 2 ^ 64) : addSize a b = .ok (a + b) := if_pos h

theorem subSize_eq {a b : Nat} (h : b ≤ a) : subSize a b = .ok (a - b) := if_pos h

theorem bind_ok {α β : Type} {x : Scan α} {a : α} (h : x = .ok a) (f : α → Scan β) :
    (x >>= f) = f a := by
  rw [h]
  rfl

section

variable {input : Bytes}

theorem byteAt_eq {i : Nat} (h : i < input.length) : byteAt input i = .ok input[i] := by
  rw [byteAt, readAt_eq h]
  rfl

theorem countBackslashes_ok
    {j n bs : Nat} (hj : j ≤ input.length) (hbs : bs ≤ j) (hn : j - bs < n) :
    ∃ r, countBackslashes input j n bs = .ok r := by
  induction n generalizing bs with
  | zero => omega
  | succ n ih =>
    rw [countBackslashes]
    split
    · rw [bind_ok (subSize_eq (by omega)), bind_ok (subSize_eq (by omega)),
        bind_ok (byteAt_eq (by omega))]
      split
      · exact ih (by omega) (by omega)
      · exact ⟨bs, rfl⟩
    · exact ⟨bs, rfl⟩

theorem findQuote_ok {floor n j : Nat} (hj : j ≤ input.length) (hfloor : floor ≤ j)
    (hn : j - floor < n) :
    ∃ r, findQuote input floor n j = .ok r ∧ floor ≤ r ∧ r ≤ j := by
  induction n generalizing j with
  | zero => omega
  | succ n ih =>
    rw [findQuote]
    split
    · have hnext : ∃ r, findQuote input floor n (j - 1) = .ok r ∧ floor ≤ r ∧ r ≤ j := by
        obtain ⟨r, hr, hlo, hhi⟩ := ih (j := j - 1) (by omega) (by omega) (by omega)
        exact ⟨r, hr, hlo, by omega⟩
      rw [bind_ok (subSize_eq (by omega)), bind_ok (byteAt_eq (by omega))]
      split
      · obtain ⟨bs, hbs⟩ :=
          @countBackslashes_ok input (j - 1) (j - 1 + 1) 0 (by omega) (Nat.zero_le _) (by omega)
        rw [bind_ok hbs]
        split
        · exact ⟨j - 1, rfl, by omega, by omega⟩
        · exact hnext
      · exact hnext
    · exact ⟨floor, rfl, Nat.le_refl _, hfloor⟩

theorem stringStartBefore_ok {i floor : Nat} (hi : i ≤ input.length) (hfloor : floor < i) :
    ∃ r, stringStartBefore input i floor = .ok r ∧ floor ≤ r ∧ r < i := by
  obtain ⟨r, hr, hlo, hhi⟩ :=
    @findQuote_ok input floor (i - 1 + 1) (i - 1) (by omega) (by omega) (by omega)
  refine ⟨r, ?_, hlo, by omega⟩
  rw [stringStartBefore, bind_ok (subSize_eq (by omega))]
  exact hr

theorem scanBack_ok {floor n i : Nat} (depth : Int) (seps : Nat) (hi : i ≤ input.length)
    (hfloor : floor ≤ i) (hn : i - floor < n) :
    ∃ r, scanBack input floor n i depth seps = .ok r ∧ floor ≤ r ∧ r ≤ i := by
  induction n generalizing i depth seps with
  | zero => omega
  | succ n ih =>
    rw [scanBack]
    split
    · have hnext : ∀ k, floor ≤ k → k < i → ∀ depth seps,
          ∃ r, scanBack input floor n k depth seps = .ok r ∧ floor ≤ r ∧ r ≤ i := by
        intro k hk hki depth seps
        obtain ⟨r, hr, hlo, hhi⟩ := ih (i := k) depth seps (by omega) hk (by omega)
        exact ⟨r, hr, hlo, by omega⟩
      have hhere : ∃ r, (pure i : Scan Nat) = .ok r ∧ floor ≤ r ∧ r ≤ i :=
        ⟨i, rfl, hfloor, Nat.le_refl _⟩
      rw [bind_ok (subSize_eq (by omega)), bind_ok (byteAt_eq (by omega))]
      split
      · obtain ⟨k, hk, hlo, hhi⟩ := stringStartBefore_ok hi ‹floor < i›
        rw [bind_ok hk]
        exact hnext k hlo hhi _ _
      · have hback := hnext (i - 1) (by omega) (by omega)
        split
        · exact hback _ _
        · split
          · split
            · exact hhere
            · exact hback _ _
          · split
            · split
              · exact hhere
              · exact hback _ _
            · exact hback _ _
    · exact ⟨i, rfl, hfloor, Nat.le_refl _⟩

theorem skipWs_ok {stop n i : Nat} (hstop : stop ≤ input.length) (hi : i ≤ stop)
    (hn : stop - i < n) :
    ∃ r, skipWs input stop n i = .ok r ∧ i ≤ r ∧ r ≤ stop := by
  induction n generalizing i with
  | zero => omega
  | succ n ih =>
    rw [skipWs]
    split
    · rw [bind_ok (byteAt_eq (by omega))]
      split
      · obtain ⟨r, hr, hlo, hhi⟩ := ih (i := i + 1) (by omega) (by omega)
        exact ⟨r, hr, by omega, hhi⟩
      · exact ⟨i, rfl, Nat.le_refl _, hi⟩
    · exact ⟨i, rfl, Nat.le_refl _, hi⟩

theorem trimWs_ok {floor n i : Nat} (hi : i ≤ input.length) (hfloor : floor ≤ i)
    (hn : i - floor < n) :
    ∃ r, trimWs input floor n i = .ok r ∧ floor ≤ r ∧ r ≤ i := by
  induction n generalizing i with
  | zero => omega
  | succ n ih =>
    rw [trimWs]
    split
    · rw [bind_ok (subSize_eq (by omega)), bind_ok (byteAt_eq (by omega))]
      split
      · obtain ⟨r, hr, hlo, hhi⟩ := ih (i := i - 1) (by omega) (by omega) (by omega)
        exact ⟨r, hr, hlo, by omega⟩
      · exact ⟨i, rfl, hfloor, Nat.le_refl _⟩
    · exact ⟨i, rfl, hfloor, Nat.le_refl _⟩

theorem scanFloor_ok {offset lineStart : Nat} (hsize : input.length < 2 ^ 63)
    (hoffset : offset ≤ input.length) (hline : lineStart ≤ offset) :
    ∃ r, scanFloor offset lineStart = .ok r ∧ lineStart ≤ r ∧ r ≤ offset := by
  unfold scanFloor excerptScanLimit
  rw [bind_ok (addSize_eq (by omega))]
  split
  · exact ⟨offset - 96, subSize_eq (by omega), by omega, by omega⟩
  · exact ⟨lineStart, rfl, Nat.le_refl _, hline⟩

/-- The window starts in the line, at the error or before it. -/
theorem excerptStart_ok {offset lineStart : Nat} (hsize : input.length < 2 ^ 63)
    (hoffset : offset ≤ input.length) (hline : lineStart ≤ offset) :
    ∃ r, excerptStart input offset lineStart = .ok r ∧ lineStart ≤ r ∧ r ≤ offset := by
  obtain ⟨floor, hfloor, hlo, hhi⟩ := scanFloor_ok hsize hoffset hline
  obtain ⟨i, hi, hilo, hihi⟩ := scanBack_ok (n := offset + 1) 0 0 hoffset hhi (by omega)
  obtain ⟨r, hr, hrlo, hrhi⟩ := skipWs_ok (n := offset + 1) hoffset hihi (by omega)
  refine ⟨r, ?_, by omega, hrhi⟩
  rw [excerptStart, bind_ok hfloor, bind_ok hi]
  exact hr

/-- An escape may take the scan one byte beyond its end. -/
theorem skipLiteral_ok {ceil n i : Nat} (hsize : input.length < 2 ^ 63)
    (hceil : ceil ≤ input.length) (hi : i ≤ ceil + 1) (hn : ceil - i < n) :
    ∃ r, skipLiteral input ceil n i = .ok r ∧ i ≤ r ∧ r ≤ ceil + 1 := by
  induction n generalizing i with
  | zero => omega
  | succ n ih =>
    rw [skipLiteral]
    split
    · rw [bind_ok (byteAt_eq (by omega))]
      split
      · rw [bind_ok (addSize_eq (by omega))]
        obtain ⟨r, hr, hlo, hhi⟩ := ih (i := i + 2) (by omega) (by omega)
        exact ⟨r, hr, by omega, hhi⟩
      · split
        · exact ⟨i + 1, rfl, by omega, by omega⟩
        · obtain ⟨r, hr, hlo, hhi⟩ := ih (i := i + 1) (by omega) (by omega)
          exact ⟨r, hr, by omega, hhi⟩
    · exact ⟨i, rfl, Nat.le_refl _, hi⟩

theorem scanAhead_ok {ceil n i : Nat} (depth : Int) (seps : Nat) (hsize : input.length < 2 ^ 63)
    (hceil : ceil ≤ input.length) (hn : ceil - i < n) :
    ∃ r, scanAhead input ceil n i depth seps = .ok r ∧ i ≤ r ∧ (r = i ∨ r ≤ ceil) := by
  induction n generalizing i depth seps with
  | zero => omega
  | succ n ih =>
    rw [scanAhead]
    have hhere : ∃ r, (pure i : Scan Nat) = .ok r ∧ i ≤ r ∧ (r = i ∨ r ≤ ceil) :=
      ⟨i, rfl, Nat.le_refl _, .inl rfl⟩
    split
    · have hnext : ∀ k, i < k → k ≤ ceil → ∀ depth seps,
          ∃ r, scanAhead input ceil n k depth seps = .ok r ∧ i ≤ r ∧ (r = i ∨ r ≤ ceil) := by
        intro k hk hkc depth seps
        obtain ⟨r, hr, hlo, hhi⟩ := ih (i := k) depth seps (by omega)
        exact ⟨r, hr, by omega, .inr (by omega)⟩
      rw [bind_ok (byteAt_eq (by omega))]
      split
      · obtain ⟨k, hk, hlo, hhi⟩ :=
          skipLiteral_ok (n := ceil + 1) (i := i + 1) hsize hceil (by omega) (by omega)
        rw [bind_ok hk]
        exact hnext _ (by split <;> omega) (by split <;> omega) _ _
      · have hahead := hnext (i + 1) (by omega) (by omega)
        split
        · exact hahead _ _
        · split
          · split
            · exact hhere
            · exact hahead _ _
          · split
            · split
              · exact hhere
              · exact hahead _ _
            · exact hahead _ _
    · exact hhere

/-- The window ends behind its start. -/
theorem excerptEnd_ok {start lineEnd : Nat} (hsize : input.length < 2 ^ 63)
    (hstart : start ≤ input.length) (hline : lineEnd ≤ input.length) :
    ∃ r, excerptEnd input start lineEnd = .ok r ∧ start ≤ r := by
  have hceil : (if start + excerptScanLimit < lineEnd then start + excerptScanLimit else lineEnd) ≤
    input.length := by
    split <;> omega
  obtain ⟨i, hi, hilo, hihi⟩ := scanAhead_ok (i := start)
    (n := (if start + excerptScanLimit < lineEnd then start + excerptScanLimit else lineEnd) + 1) 0
      0 hsize hceil (by omega)
  have hle : i ≤ input.length := by omega
  obtain ⟨r, hr, hrlo, hrhi⟩ := trimWs_ok (n := i + 1) hle hilo (by omega)
  refine ⟨r, ?_, hrlo⟩
  rw [excerptEnd, bind_ok (addSize_eq (by unfold excerptScanLimit; omega)), bind_ok hi]
  exact hr

/-! ### The line of the error -/

/-- The line that an offset lies in, without its newline. -/
structure Line (input : Bytes) (start stop offset : Nat) : Prop where
  start_le : start ≤ offset
  le_stop : offset ≤ stop
  stop_le : stop ≤ input.length
  inside : ∀ i, start ≤ i → i < stop → input[i]? ≠ some 0x0A
  before : start = 0 ∨ input[start - 1]? = some 0x0A
  behind : stop = input.length ∨ input[stop]? = some 0x0A

theorem rfindNewline_spec (pos : Nat) :
    (∀ nl, rfindNewline input pos = some nl → nl ≤ pos ∧ input[nl]? = some 0x0A ∧
        ∀ i, nl < i → i ≤ pos → input[i]? ≠ some 0x0A) ∧
      (rfindNewline input pos = none → ∀ i ≤ pos, input[i]? ≠ some 0x0A) := by
  induction pos with
  | zero =>
    rw [rfindNewline]
    split
    · rename_i hnl
      refine ⟨fun nl hfound => ?_, nofun⟩
      cases hfound
      exact ⟨Nat.le_refl _, hnl, fun i hi hle => absurd hle (Nat.not_le.2 hi)⟩
    · rename_i hnl
      refine ⟨nofun, fun _ i hi => ?_⟩
      obtain rfl := Nat.le_zero.1 hi
      exact hnl
  | succ pos ih =>
    rw [rfindNewline]
    split
    · rename_i hnl
      refine ⟨fun nl hfound => ?_, nofun⟩
      cases hfound
      exact ⟨Nat.le_refl _, hnl, fun i hi hle => absurd hle (Nat.not_le.2 hi)⟩
    · rename_i hnl
      refine ⟨fun nl hfound => ?_, fun hnone i hi => ?_⟩
      · obtain ⟨hle, hat, hlast⟩ := ih.1 nl hfound
        refine ⟨by omega, hat, fun i hi hipos => ?_⟩
        rcases Nat.lt_or_eq_of_le hipos with hlt | rfl
        · exact hlast i hi (by omega)
        · exact hnl
      · rcases Nat.lt_or_eq_of_le hi with hlt | rfl
        · exact ih.2 hnone i (by omega)
        · exact hnl

theorem lineStartOf_ok {offset : Nat} : ∃ r, lineStartOf input offset = .ok r ∧ r ≤ offset ∧
    (r = 0 ∨ input[r - 1]? = some 0x0A) ∧ ∀ i, r ≤ i → i < offset → input[i]? ≠ some 0x0A := by
  unfold lineStartOf
  split
  · rw [bind_ok (subSize_eq (by omega))]
    obtain ⟨hsome, hnone⟩ := @rfindNewline_spec input (offset - 1)
    split
    · rename_i nl hfound
      obtain ⟨hle, hat, hlast⟩ := hsome nl hfound
      exact ⟨nl + 1, rfl, by omega, .inr hat, fun i hi hlt => hlast i hi (by omega)⟩
    · rename_i hfound
      exact ⟨0, rfl, Nat.zero_le _, .inl rfl, fun i _ hlt => hnone hfound i (by omega)⟩
  · exact ⟨0, rfl, Nat.zero_le _, .inl rfl, fun i _ hlt => by omega⟩

theorem findNewline_spec {pos : Nat} (hpos : pos ≤ input.length) :
    pos ≤ (findNewline input pos).getD input.length ∧
      (findNewline input pos).getD input.length ≤ input.length ∧
      (∀ i, pos ≤ i → i < (findNewline input pos).getD input.length → input[i]? ≠ some 0x0A) ∧
      ((findNewline input pos).getD input.length = input.length ∨
        input[(findNewline input pos).getD input.length]? = some 0x0A) := by
  unfold findNewline
  cases hfound : (input.drop pos).findIdx? (· = 0x0A) with
  | none =>
    refine ⟨hpos, Nat.le_refl _, fun i hi hlt heq => ?_, .inl rfl⟩
    have hmem : (0x0A : UInt8) ∈ input.drop pos := by
      rw [List.mem_iff_getElem?]
      exact ⟨i - pos, by rwa [List.getElem?_drop, Nat.add_sub_cancel' hi]⟩
    have hno := List.findIdx?_eq_none_iff.1 hfound _ hmem
    simp at hno
  | some k =>
    obtain ⟨hk, hat, hfirst⟩ := List.findIdx?_eq_some_iff_getElem.1 hfound
    rw [List.length_drop] at hk
    rw [List.getElem_drop] at hat
    simp only [Option.map_some, Option.getD_some]
    refine ⟨Nat.le_add_right _ _, by omega, fun i hi hlt heq => ?_, .inr ?_⟩
    · have hno := hfirst (i - pos) (by omega)
      rw [List.getElem_drop] at hno
      simp only [Nat.add_sub_cancel' hi, decide_eq_true_eq] at hno
      obtain ⟨_, hget⟩ := List.getElem?_eq_some_iff.1 heq
      exact hno hget
    · rw [List.getElem?_eq_getElem (by omega)]
      exact congrArg some (of_decide_eq_true hat)

/-! ### The excerpt -/

theorem tokenLength_ok
    {e : Error} {offset : Nat} (hlength : offset + (if e.length ≠ 0 then e.length else 1) < 2 ^ 64)
    (hoffset : offset ≤ input.length) :
    ∃ r, tokenLength e input offset = .ok r ∧ offset + r ≤ input.length := by
  rw [tokenLength, bind_ok (addSize_eq hlength)]
  generalize (if e.length ≠ 0 then e.length else 1) = length
  split
  · split
    · exact ⟨input.length - offset, subSize_eq (by omega), by omega⟩
    · exact ⟨0, rfl, hoffset⟩
  · exact ⟨_, rfl, by omega⟩

theorem opensValue_ok (offset : Nat) : ∃ r, opensValue input offset = .ok r := by
  rw [opensValue]
  split
  · rw [bind_ok (byteAt_eq ‹_›)]
    exact ⟨_, rfl⟩
  · exact ⟨false, rfl⟩

/-- There is a caret, and where there is an excerpt behind the offset the carets stand under it. -/
theorem caretCount_ok {offset length stop : Nat} (hoffset : offset + length < 2 ^ 63) :
    ∃ r, caretCount offset length stop = .ok r ∧ 1 ≤ r ∧ (offset < stop → offset + r ≤ stop) := by
  unfold caretCount
  have hcarets : offset + (if length ≠ 0 then length else 1) < 2 ^ 64 := by split <;> omega
  have hpos : 1 ≤ if length ≠ 0 then length else 1 := by split <;> omega
  rw [bind_ok (addSize_eq hcarets)]
  generalize (if length ≠ 0 then length else 1) = carets at hcarets hpos ⊢
  by_cases hclip : stop < offset + carets ∧ offset < stop
  · rw [if_pos hclip, bind_ok (subSize_eq (by omega))]
    exact ⟨_, rfl, by split <;> omega, fun _ => by split <;> omega⟩
  · rw [if_neg hclip]
    exact ⟨_, rfl, by split <;> omega, fun _ => by split <;> omega⟩

theorem showBytes_ok {n i : Nat} (h : i + n ≤ input.length) :
    showBytes input n i = .ok (((input.drop i).take n).map shown) := by
  induction n generalizing i with
  | zero => rfl
  | succ n ih =>
    have hi : i < input.length := by omega
    rw [showBytes, bind_ok (byteAt_eq hi), bind_ok (ih (i := i + 1) (by omega)),
      List.drop_eq_getElem_cons hi,
      List.take_succ_cons, List.map_cons]
    rfl

/-- What holds of the variables of a run. -/
structure Excerpt.Framed (x : Excerpt) (input : Bytes) (offset : Nat) : Prop where
  line : Line input x.lineStart x.lineEnd offset
  lineStart_le : x.lineStart ≤ x.start
  start_le : x.start ≤ offset
  le_stop : offset ≤ x.stop
  stop_le : x.stop ≤ x.lineEnd
  col : x.col = 2 + (if x.cutLeft then 1 else 0) + (offset - x.start)
  carets_pos : 1 ≤ x.carets
  carets_le : offset < x.stop → offset + x.carets ≤ x.stop

theorem excerpt_ok {e : Error} (hsize : input.length < 2 ^ 63) (hoffset : e.offset ≤ input.length)
    (hlength : e.offset + e.length < 2 ^ 64) :
    ∃ x, excerpt e input = .ok x ∧ x.Framed input e.offset := by
  have hsum : e.offset + (if e.length ≠ 0 then e.length else 1) < 2 ^ 64 := by split <;> omega
  obtain ⟨length, hrunLength, hend⟩ := tokenLength_ok hsum hoffset
  obtain ⟨lineStart, hrunLine, hline, hbefore, hfront⟩ := @lineStartOf_ok input e.offset
  obtain ⟨hnext, hlineEnd, hback, hbehind⟩ := findNewline_spec hoffset
  obtain ⟨start, hrunStart, hstartLo, hstartHi⟩ := excerptStart_ok hsize hoffset hline
  obtain ⟨opener, hrunOpener⟩ := @opensValue_ok input e.offset
  generalize hle : (findNewline input e.offset).getD input.length =
    lineEnd at hnext hlineEnd hback hbehind
  have hfrom : (if opener = true then e.offset else e.offset + length) ≤ input.length := by
    split <;> omega
  obtain ⟨stop, hrunStop, hstop⟩ := excerptEnd_ok hsize hfrom hlineEnd
  have hclamped : ∃ r,
    (if lineEnd < (if stop < e.offset + length then e.offset + length else stop) then lineEnd
      else (if stop < e.offset + length then e.offset + length else stop)) = r ∧ e.offset ≤ r ∧
        r ≤ lineEnd := by
    refine ⟨_, rfl, ?_, ?_⟩ <;> split <;> (try split) <;> omega
  obtain ⟨r, hr, hrlo, hrhi⟩ := hclamped
  obtain ⟨first, hrunFirst, -, -⟩ := skipWs_ok (n := e.offset + 1) hoffset hline (by omega)
  obtain ⟨last, hrunLast, -, -⟩ := trimWs_ok (n := lineEnd + 1) hlineEnd hrhi (by omega)
  obtain ⟨carets, hrunCarets, hpos, hunder⟩ := @caretCount_ok e.offset length r (by omega)
  have hcol : 2 + (if first < start then 1 else 0) + (e.offset - start) < 2 ^ 64 := by
    split <;> omega
  have hrun : excerpt e input = .ok {
      lineStart, lineEnd, start, stop := r, carets
      col := 2 + (if first < start then 1 else 0) + (e.offset - start)
      cutLeft := first < start
      cutRight := r < last } := by
    unfold excerpt
    simp only [if_neg (Nat.not_lt.2 hoffset), hle]
    rw [bind_ok hrunLength, bind_ok hrunLine, bind_ok hrunStart, bind_ok hrunOpener,
      bind_ok (addSize_eq (by omega)),
      bind_ok hrunStop]
    simp only [hr]
    rw [bind_ok hrunFirst, bind_ok hrunLast, bind_ok (subSize_eq hstartHi),
      bind_ok (addSize_eq hcol), bind_ok hrunCarets]
    rfl
  refine ⟨_, hrun, ⟨⟨hline, hnext, hlineEnd, ?_, hbefore, hbehind⟩, hstartLo, hstartHi, hrlo, hrhi,
    ?_, hpos, hunder⟩⟩
  · intro i hi hlt
    rcases Nat.lt_or_ge i e.offset with hside | hside
    · exact hfront i hi hside
    · exact hback i hside hlt
  · simp only [decide_eq_true_eq]

end

/-! ### The lines -/

def margin : Bytes := str "   |  "

def bar : Bytes := str "   |"

/-- The line of the excerpt as far as byte `i` of the input. -/
def Excerpt.front (x : Excerpt) (input : Bytes) (i : Nat) : Bytes :=
  margin ++ (if x.cutLeft then ellipsis else []) ++
    ((input.drop x.start).take (i - x.start)).map shown

/-- The column of byte `i` of the input in that line: one for the ellipsis, and one for each byte of
the input. -/
def Excerpt.column (x : Excerpt) (i : Nat) : Nat :=
  margin.length + (if x.cutLeft then 1 else 0) + (i - x.start)

/-- The line of the carets, without the offset. -/
def Excerpt.caretLine (x : Excerpt) : Bytes :=
  bar ++ List.replicate x.col 0x20 ++ List.replicate x.carets 0x5E

/-- A byte in the middle of a character. -/
def IsCont (b : UInt8) : Prop := 0x80 ≤ b ∧ b < 0xC0

instance (b : UInt8) : Decidable (IsCont b) := inferInstanceAs (Decidable (_ ∧ _))

/-- The columns of a text on a display, one for each character. -/
def displayColumns (bs : Bytes) : Nat := bs.countP fun b => ¬ IsCont b

theorem isCont_shown (b : UInt8) : IsCont (shown b) ↔ IsCont b := by
  have htoNat : ∀ c : UInt8, IsCont c ↔ 0x80 ≤ c.toNat ∧ c.toNat < 0xC0 := fun c => by
    rw [IsCont, UInt8.le_iff_toNat_le, UInt8.lt_iff_toNat_lt]
    rfl
  unfold shown
  split
  · rename_i htab
    subst htab
    decide
  · split
    · rename_i hcontrol
      rw [UInt8.lt_iff_toNat_lt] at hcontrol
      have hlow : b.toNat < 0x20 := hcontrol
      rw [htoNat, htoNat]
      exact iff_of_false (by decide) (by omega)
    · exact Iff.rfl

theorem displayColumns_append (a b : Bytes) :
    displayColumns (a ++ b) = displayColumns a + displayColumns b :=
  List.countP_append

theorem displayColumns_shown (bs : Bytes) : displayColumns (bs.map shown) = displayColumns bs := by
  rw [displayColumns, List.countP_map]
  refine List.countP_congr fun b _ => ?_
  simp only [Function.comp_apply, decide_eq_true_eq, isCont_shown]

/-- Characters of one byte each are all that a display needs to agree with the count of bytes. -/
theorem displayColumns_front
    {x : Excerpt} {input : Bytes} {i : Nat} (hi : i ≤ input.length) (hstart : x.start ≤ i) :
    displayColumns (x.front input i) = x.column i ↔
      ∀ b ∈ (input.drop x.start).take (i - x.start), ¬ IsCont b := by
  have hhead : displayColumns (margin ++ if x.cutLeft then ellipsis else []) =
    margin.length + if x.cutLeft then 1 else 0 := by
    split <;> decide
  have hlength : ((input.drop x.start).take (i - x.start)).length = i - x.start := by
    rw [List.length_take, List.length_drop]
    omega
  rw [Excerpt.front, Excerpt.column, displayColumns_append, displayColumns_shown, hhead,
    Nat.add_left_cancel_iff]
  generalize (input.drop x.start).take (i - x.start) = bs at hlength ⊢
  rw [← hlength, displayColumns, List.countP_eq_length]
  simp only [decide_eq_true_eq]

/-- The lines of an excerpt. -/
def picture (x : Excerpt) (e : Error) (input : Bytes) : Bytes :=
  str "   |\n" ++ x.front input x.stop ++ (if x.cutRight then ellipsis else []) ++ [0x0A] ++
    x.caretLine ++
    str " at byte offset " ++ decimal e.offset ++ [0x0A]

theorem renderExcerpt_eq {e : Error} {input : Bytes} {x : Excerpt} (out : Bytes)
    (hrun : excerpt e input = .ok x) (hx : x.Framed input e.offset) :
    renderExcerpt out e input = .ok (out ++ picture x e input) := by
  have hstart := hx.start_le.trans hx.le_stop
  have hstop := hx.stop_le.trans hx.line.stop_le
  have hmargin : str "   |\n   |  " = str "   |\n" ++ margin := by decide
  have hbar : str "\n   |" = [0x0A] ++ bar := by decide
  rw [renderExcerpt, bind_ok hrun, bind_ok (showBytes_ok (by omega)), picture, hmargin, hbar,
    Excerpt.front, Excerpt.caretLine]
  simp only [List.append_assoc]
  rfl

/-- Rendering an excerpt always returns, without an access outside the input and without wrapping.
The window lies in the line of the error, around its offset; the carets start in the column of the
byte at the offset and end in the window. On a display, which shows a character of several bytes in
one column, this is the column of that byte if and only if no such character stands in front of
it. -/
theorem renderExcerpt_framed
    (out : Bytes) (e : Error) (input : Bytes) (hsize : input.length < 2 ^ 63)
    (hoffset : e.offset ≤ input.length) (hlength : e.offset + e.length < 2 ^ 64) :
    ∃ x, excerpt e input = .ok x ∧ x.Framed input e.offset ∧
      renderExcerpt out e input =
        .ok (out ++ str "   |\n" ++ x.front input x.stop ++ (if x.cutRight then ellipsis else []) ++
        [0x0A] ++ x.caretLine ++ str " at byte offset " ++ decimal e.offset ++ [0x0A]) ∧
      bar.length + x.col = x.column e.offset ∧
      (e.offset < x.stop → bar.length + x.col + x.carets ≤ x.column x.stop) ∧
      (displayColumns (x.front input e.offset) = bar.length + x.col ↔
        ∀ b ∈ (input.drop x.start).take (e.offset - x.start), ¬ IsCont b) := by
  obtain ⟨x, hrun, hx⟩ := excerpt_ok hsize hoffset hlength
  have hcol : bar.length + x.col = x.column e.offset := by
    rw [hx.col, Excerpt.column, show bar.length = 4 by decide, show margin.length = 6 by decide]
    omega
  refine ⟨x, hrun, hx, ?_, hcol, fun hstop => ?_, ?_⟩
  · rw [renderExcerpt_eq out hrun hx, picture]
    simp only [List.append_assoc]
  · have hcarets := hx.carets_le hstop
    have hstart := hx.start_le
    rw [hcol, Excerpt.column, Excerpt.column]
    omega
  · rw [hcol]
    exact displayColumns_front hoffset hx.start_le

theorem renderExcerpt_framed_literal :
    ∃ x, excerpt { code := .unexpectedToken, offset := 4, length := 3 } (str "[1, tru]") = .ok x ∧
      x.Framed (str "[1, tru]") 4 := by
  obtain ⟨x, hrun, hx, -⟩ :=
    renderExcerpt_framed [] { code := .unexpectedToken, offset := 4, length := 3 } (str "[1, tru]")
    (by decide) (by decide) (by decide)
  exact ⟨x, hrun, hx⟩

end VCodec.Render
