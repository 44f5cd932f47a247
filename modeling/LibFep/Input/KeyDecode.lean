import LibFep.Text.Split
import LibFep.Input.Key

/-!
# LibFep — keys as the terminal sends them

`_fep_esc_to_key` and `_fep_char_to_key` of `fep/key.c`, and the round of `main_loop` that tries the
one after the other. The end pointers are offsets.

* **`escToKey_of_parse`** — one of the three introducers decides what a string stands for.
* **`getStateFromCursor_cases`** — the assertion on the second of two parameters.
-/

namespace LibFep

open Lib

/-- What the decoding of a key stores through `r_key` and `r_state`. -/
structure KeyEvent where
  keyval : BitVec 32
  state : BitVec 32
  deriving DecidableEq, Repr

/-! ## `_fep_char_to_key` -/

def charToKey (tty : UInt8) : Option KeyEvent :=
  let state : BitVec 32 := if tty &&& 0x80 ≠ 0 then fepMetaMask else 0
  let tty := tty &&& 0x7F
  let code : BitVec 32 := tty.toBitVec.setWidth 32
  let event : KeyEvent :=
    -- C-space
    if tty = 0 then ⟨0x20, state ||| fepControlMask⟩
    else if tty = 0x09 then ⟨fepTab, state⟩
    else if tty = 0x0D then ⟨fepReturn, state⟩
    -- C-[
    else if tty = escape then ⟨fepEscape, state⟩
    -- C-?
    else if tty = 0x7F then ⟨fepBackSpace, state⟩
    -- C-a .. C-z
    else if 1 ≤ tty ∧ tty ≤ 26 then ⟨code + 0x60, state ||| fepControlMask⟩
    -- C-\ C-] C-^ C-_
    else if 28 ≤ tty ∧ tty ≤ 31 then ⟨code + 0x40, state ||| fepControlMask⟩
    -- A .. Z
    else if 0x41 ≤ tty ∧ tty ≤ 0x5A then ⟨code, state ||| fepShiftMask⟩
    else ⟨code, 0⟩
  if event.keyval ≠ 0 then some event else none

/-! ## `_fep_esc_to_key` -/

def getStateFromCursor (p : Platform) (csi : FepCSI) : Except Fault (BitVec 32) :=
  match strsplit csi.params [0x3B] (by simp) with
  | [_, token] =>
    let param := p.strtoul token
    if param.Passes then
      .ok ((cursorStates.find? (fun entry => (entry.1 : Int) = param.toInt)).elim 0 (·.2))
    else .error .assertion
  | _ => .ok 0

def csiToCursorKey (p : Platform) (csi : FepCSI) : Except Fault (Option KeyEvent) :=
  match cursorKeyvals.find? (fun entry => entry.1 = csi.final) with
  | some (_, keyval) => do return some ⟨keyval, ← getStateFromCursor p csi⟩
  | none => return none

/-- `strncmp (csi_str, cap_str, strlen (cap_str)) == 0`. -/
def hasCapPrefix (strings : KeyStrings) (csi_str : List UInt8) (cap : KeyCapability) : Bool :=
  match strings cap with
  | some cap_str => cap_str.isPrefixOf csi_str
  | none => false

def csiToKey (p : Platform) (strings : KeyStrings) (csi : FepCSI) :
    Except Fault (Option KeyEvent) := do
  match ← csiToCursorKey p csi with
  | some event => return some event
  | none =>
    -- a final byte of 0 ends the string
    let csi_str := (csiFormat csi).takeWhile (· ≠ 0)
    match capKeyvals.find? (fun entry => hasCapPrefix strings csi_str entry.1) with
    | some (_, keyval) => return some ⟨keyval, 0⟩
    | none => return none

/-- Esc O A .. Esc O H, the cursor keys on VT100, VT320 and xterm. -/
def isSs3Final (c : UInt8) : Bool := [0x41, 0x42, 0x43, 0x44, 0x46, 0x48].contains c

/-- Esc o a .. Esc o d, the cursor keys with Ctrl on Eterm. -/
def isEtermFinal (c : UInt8) : Bool := [0x61, 0x62, 0x63, 0x64].contains c

/-- `toupper`, on a letter from `a` to `z`. -/
def toUpper (c : UInt8) : UInt8 := if 0x61 ≤ c ∧ c ≤ 0x7A then c - 0x20 else c

def escToKey (p : Platform) (strings : KeyStrings) (str : List UInt8) :
    Except Fault (Option (KeyEvent × Nat)) :=
  match csiParse str 0x4F with
  | some (csi, endptr) =>
    if isSs3Final csi.final then do return (← csiToCursorKey p csi).map (·, endptr)
    else .ok none
  | none =>
    match csiParse str 0x6F with
    | some (csi, endptr) =>
      if isEtermFinal csi.final then do
        return (← csiToCursorKey p { csi with final := toUpper csi.final }).map (·, endptr)
      else .ok none
    | none =>
      match csiParse str 0x5B with
      | some (csi, endptr) => do return (← csiToKey p strings csi).map (·, endptr)
      | none => .ok none

/-- The key at `buf + i` and the end of its bytes, as `main_loop` decodes it. -/
def decodeKey (p : Platform) (strings : KeyStrings) (buf : List UInt8) (i : Nat) :
    Except Fault (Option KeyEvent × Nat) := do
  match ← escToKey p strings (buf.drop i) with
  | some (event, endptr) => return (some event, i + endptr)
  -- the next character is at `buf + i + 1`, a key or not
  | none => return (charToKey (← byteAt buf i), i + 1)

/-! ## Which introducer decides -/

def keyIntroducers : List UInt8 := [0x4F, 0x6F, 0x5B]

/-- What a sequence stands for, by its introducer. -/
def keyOfSequence (p : Platform) (strings : KeyStrings) (introducer : UInt8) (csi : FepCSI) :
    Except Fault (Option KeyEvent) :=
  if introducer = 0x4F then
    if isSs3Final csi.final then csiToCursorKey p csi else .ok none
  else if introducer = 0x6F then
    if isEtermFinal csi.final then csiToCursorKey p { csi with final := toUpper csi.final }
    else .ok none
  else csiToKey p strings csi

theorem keyOfSequence_ss3 (p : Platform) (strings : KeyStrings) (csi : FepCSI) :
    keyOfSequence p strings 0x4F csi =
      if isSs3Final csi.final then csiToCursorKey p csi else .ok none :=
  if_pos rfl

theorem keyOfSequence_eterm (p : Platform) (strings : KeyStrings) (csi : FepCSI) :
    keyOfSequence p strings 0x6F csi =
      if isEtermFinal csi.final then csiToCursorKey p { csi with final := toUpper csi.final }
      else .ok none :=
  (if_neg (by decide)).trans (if_pos rfl)

theorem keyOfSequence_csi (p : Platform) (strings : KeyStrings) (csi : FepCSI) :
    keyOfSequence p strings 0x5B csi = csiToKey p strings csi :=
  (if_neg (by decide)).trans (if_neg (by decide))

theorem csiParse_of_parse {str : List UInt8} {introducer other : UInt8} {r : FepCSI × Nat}
    (h : csiParse str introducer = some r) (hne : other ≠ introducer) :
    csiParse str other = none := by
  obtain ⟨-, -, t, rfl⟩ := csiParse_eq_some_iff.mp h
  apply csiParse_of_ne
  intro rest heq
  exact hne (List.cons.inj (List.cons.inj heq).2).1.symm

theorem escToKey_of_parse {p : Platform} {strings : KeyStrings} {str : List UInt8}
    {introducer : UInt8} {csi : FepCSI} {n : Nat} (hmem : introducer ∈ keyIntroducers)
    (h : csiParse str introducer = some (csi, n)) :
    escToKey p strings str = (keyOfSequence p strings introducer csi).map (·.map (·, n)) := by
  have hother : ∀ other, other ≠ introducer → csiParse str other = none := fun other hne =>
    csiParse_of_parse h hne
  simp only [keyIntroducers, List.mem_cons, List.not_mem_nil, or_false] at hmem
  rcases hmem with rfl | rfl | rfl
  · rw [keyOfSequence_ss3]
    simp only [escToKey, h]
    split
    · cases csiToCursorKey p csi <;> rfl
    · rfl
  · rw [keyOfSequence_eterm]
    simp only [escToKey, h, hother 0x4F (by decide)]
    split
    · cases csiToCursorKey p { csi with final := toUpper csi.final } <;> rfl
    · rfl
  · rw [keyOfSequence_csi]
    simp only [escToKey, h, hother 0x4F (by decide), hother 0x6F (by decide)]
    cases csiToKey p strings csi <;> rfl

theorem escToKey_of_none {p : Platform} {strings : KeyStrings} {str : List UInt8}
    (h : ∀ introducer ∈ keyIntroducers, csiParse str introducer = none) :
    escToKey p strings str = .ok none := by
  have hO := h 0x4F (by simp [keyIntroducers])
  have ho := h 0x6F (by simp [keyIntroducers])
  have hbracket := h 0x5B (by simp [keyIntroducers])
  simp only [escToKey, hO, ho, hbracket]

/-- A string is either taken to start with one of the three sequences or not. -/
theorem parse_cases (str : List UInt8) :
    (∃ introducer ∈ keyIntroducers, ∃ csi n, csiParse str introducer = some (csi, n)) ∨
      ∀ introducer ∈ keyIntroducers, csiParse str introducer = none := by
  by_cases h : ∀ introducer ∈ keyIntroducers, csiParse str introducer = none
  · exact Or.inr h
  · left
    simp only [not_forall] at h
    obtain ⟨introducer, hmem, hne⟩ := h
    obtain ⟨r, hr⟩ := Option.ne_none_iff_exists'.mp hne
    exact ⟨introducer, hmem, r.1, r.2, hr⟩

/-! ## Cursor keys -/

theorem find?_cursorKeyvals_of_not {c : UInt8} (h : isSs3Final c = false) :
    cursorKeyvals.find? (fun entry => entry.1 = c) = none := by
  rw [List.find?_eq_none]
  intro entry hmem heq
  simp only [decide_eq_true_eq] at heq
  simp only [cursorKeyvals, List.mem_cons, List.not_mem_nil, or_false] at hmem
  subst heq
  rcases hmem with rfl | rfl | rfl | rfl | rfl | rfl <;> exact absurd h (by decide)

theorem exists_find?_cursorKeyvals {c : UInt8} (h : isSs3Final c = true) :
    ∃ keyval, cursorKeyvals.find? (fun entry => entry.1 = c) = some (c, keyval) := by
  simp only [isSs3Final, List.contains_iff_mem, List.mem_cons, List.not_mem_nil, or_false] at h
  rcases h with rfl | rfl | rfl | rfl | rfl | rfl <;> exact ⟨_, rfl⟩

theorem csiToCursorKey_of_not (p : Platform) {csi : FepCSI} (h : isSs3Final csi.final = false) :
    csiToCursorKey p csi = .ok none := by
  rw [csiToCursorKey, find?_cursorKeyvals_of_not h]
  rfl

theorem csiToCursorKey_of_final (p : Platform) {csi : FepCSI} (h : isSs3Final csi.final = true) :
    ∃ keyval, cursorKeyvals.find? (fun entry => entry.1 = csi.final) = some (csi.final, keyval) ∧
      csiToCursorKey p csi = (getStateFromCursor p csi).map fun state => some ⟨keyval, state⟩ := by
  obtain ⟨keyval, hfind⟩ := exists_find?_cursorKeyvals h
  refine ⟨keyval, hfind, ?_⟩
  rw [csiToCursorKey, hfind]
  cases getStateFromCursor p csi <;> rfl

/-- A cursor key is not looked up in the table. -/
theorem csiToKey_of_cursor (p : Platform) (strings : KeyStrings) {csi : FepCSI}
    (h : isSs3Final csi.final = true) : csiToKey p strings csi = csiToCursorKey p csi := by
  obtain ⟨keyval, -, hkey⟩ := csiToCursorKey_of_final p h
  rw [csiToKey, hkey]
  cases getStateFromCursor p csi <;> rfl

theorem csiToKey_of_not (p : Platform) (strings : KeyStrings) {csi : FepCSI}
    (h : isSs3Final csi.final = false) :
    csiToKey p strings csi =
      .ok ((capKeyvals.find? fun entry =>
        hasCapPrefix strings ((csiFormat csi).takeWhile (· ≠ 0)) entry.1).map
          fun entry => ⟨entry.2, 0⟩) := by
  rw [csiToKey, csiToCursorKey_of_not p h, ok_bind]
  simp only
  cases capKeyvals.find? fun entry =>
    hasCapPrefix strings ((csiFormat csi).takeWhile (· ≠ 0)) entry.1 <;> rfl

/-- The second of two parameters passes the assertion. -/
def SecondParamPasses (p : Platform) (params : List UInt8) : Prop :=
  ∀ first second, strsplit params [0x3B] (by simp) = [first, second] →
    (∀ b ∈ second, isDigit b = true) ∧ digitsValue second ≤ p.ulongMax

theorem getStateFromCursor_cases (p : Platform) {csi : FepCSI}
    (h : ∀ b ∈ csi.params, isParam b = true) :
    (SecondParamPasses p csi.params ∧ ∃ state, getStateFromCursor p csi = .ok state) ∨
      ¬ SecondParamPasses p csi.params ∧ getStateFromCursor p csi = .error .assertion := by
  unfold getStateFromCursor
  split
  · next first second hsplit =>
    have hiff := passes_token_iff (p := p) h (show second ∈ strsplit csi.params [0x3B] _ by
      rw [hsplit]
      simp)
    have hsecond : SecondParamPasses p csi.params ↔ (p.strtoul second).Passes := by
      rw [hiff]
      constructor
      · intro hpass
        exact hpass first second hsplit
      · intro hpass first' second' hsplit'
        rw [hsplit] at hsplit'
        obtain ⟨-, rfl⟩ : first = first' ∧ second = second' := by simpa using hsplit'
        exact hpass
    by_cases hpass : (p.strtoul second).Passes
    · exact Or.inl ⟨hsecond.mpr hpass, _, if_pos hpass⟩
    · exact Or.inr ⟨fun hall => hpass (hsecond.mp hall), if_neg hpass⟩
  · next hsplit =>
    exact Or.inl ⟨fun first second heq => absurd heq (hsplit first second), 0, rfl⟩

end LibFep
