import LibFep.Term.Csi

/-!
# LibFep — keys as the child sees them

`_fep_key_to_string` of `fep/key.c`: the bytes that stand for a key on the pty. The function returns
`NULL` exactly when it has appended nothing, so that the empty list is its `NULL`.

* **`keyToString_cursor`** — a cursor key is a CSI sequence with the final byte of its table.
* **`keyToString_delete`** — `FEP_Delete` is among the cursor keys but not in their table: its
  sequence ends before the final byte.
-/

namespace LibFep

open Lib

/-! ## Keys and modifiers -/

def fepShiftMask : BitVec 32 := 1

def fepControlMask : BitVec 32 := 1 <<< 2

def fepMetaMask : BitVec 32 := 1 <<< 28

def fepBackSpace : BitVec 32 := 0xff08
def fepTab : BitVec 32 := 0xff09
def fepReturn : BitVec 32 := 0xff0d
def fepEscape : BitVec 32 := 0xff1b
def fepHome : BitVec 32 := 0xff50
def fepLeft : BitVec 32 := 0xff51
def fepUp : BitVec 32 := 0xff52
def fepRight : BitVec 32 := 0xff53
def fepDown : BitVec 32 := 0xff54
def fepPrior : BitVec 32 := 0xff55
def fepNext : BitVec 32 := 0xff56
def fepEnd : BitVec 32 := 0xff57
def fepInsert : BitVec 32 := 0xff63
def fepDelete : BitVec 32 := 0xffff

/-- `FEP_F1` to `FEP_F12`. -/
def fepF (i : Fin 12) : BitVec 32 := 0xffbe + BitVec.ofNat 32 i

/-- The names of terminfo strings in `cap_keyvals`. -/
inductive KeyCapability where
  | keyBackspace
  | keyDc
  | keyPpage
  | keyNpage
  | keyHome
  | keyEnd
  | keyIc
  | keyF (i : Fin 12)
  deriving DecidableEq, Repr

/-- `_fep_cap_get_string`, `none` for `NULL`. -/
abbrev KeyStrings := KeyCapability → Option (List UInt8)

/-- The number that a modifier has as a parameter. -/
def cursorStates : List (Nat × BitVec 32) := [(2, fepShiftMask), (5, fepControlMask)]

def cursorKeyvals : List (UInt8 × BitVec 32) :=
  [(0x41, fepUp), (0x42, fepDown), (0x43, fepRight), (0x44, fepLeft), (0x46, fepEnd),
    (0x48, fepHome)]

def capKeyvals : List (KeyCapability × BitVec 32) :=
  [(.keyBackspace, fepBackSpace), (.keyDc, fepDelete), (.keyPpage, fepPrior), (.keyNpage, fepNext),
    (.keyHome, fepHome), (.keyEnd, fepEnd), (.keyIc, fepInsert)]
    ++ (List.finRange 12).map fun i => (.keyF i, fepF i)

/-! ## `_fep_key_to_string` -/

/-- The case labels of the cursor keys. -/
def isCursorKey (key : BitVec 32) : Bool :=
  [fepLeft, fepUp, fepRight, fepDown, fepDelete, fepHome, fepEnd].contains key

/-- `csi.params`. -/
def cursorParams (state : BitVec 32) : List UInt8 :=
  match cursorStates.find? (fun entry => entry.2 &&& state ≠ 0) with
  | some (param, _) => [0x30, 0x3B, UInt8.ofNat (0x30 + param)]
  | none => []

/-- The bytes of a key without a name, in the order of the tests. -/
def charString (key state : BitVec 32) : List UInt8 :=
  let byte (c : BitVec 32) : List UInt8 := [⟨c.setWidth 8⟩]
  if state &&& fepControlMask ≠ 0 then
    if 0x61 ≤ key ∧ key ≤ 0x7A then byte (key - 0x60)
    else if 0x5C ≤ key ∧ key ≤ 0x5F then byte (key - 0x40)
    else []
  else if state &&& fepShiftMask ≠ 0 then
    if 0x61 ≤ key ∧ key ≤ 0x7A then byte (0x41 + (key - 0x61))
    else if 0x21 ≤ key ∧ key ≤ 0x7E then byte key
    else []
  else if 0x21 ≤ key ∧ key ≤ 0x7E then byte key
  else []

def keyToString (strings : KeyStrings) (key state : BitVec 32) : List UInt8 :=
  if isCursorKey key then
    let final := (cursorKeyvals.find? (fun entry => entry.2 = key)).elim 0 (·.1)
    -- `strlen` of the sequence, which a final byte of 0 ends
    (csiFormat ⟨cursorParams state, [], final⟩).takeWhile (· ≠ 0)
  else if key = 0x20 then if state &&& fepControlMask ≠ 0 then [0] else [0x20]
  else if key = fepReturn then [0x0D]
  else if key = fepBackSpace then [0x7F]
  else if key = fepEscape then [0x1B]
  else if key = fepTab then [0x09]
  else if charString key state ≠ [] then charString key state
  else ((capKeyvals.find? (fun entry => entry.2 = key)).bind (strings ·.1)).getD []

/-! ## Cursor keys -/

theorem cursorParams_ne_zero (state : BitVec 32) : ∀ b ∈ cursorParams state, b ≠ 0 := by
  unfold cursorParams
  cases hfind : cursorStates.find? (fun entry => entry.2 &&& state ≠ 0) with
  | none => simp
  | some entry =>
    have hmem := List.mem_of_find?_eq_some hfind
    simp only [cursorStates, List.mem_cons, List.not_mem_nil, or_false] at hmem
    rcases hmem with rfl | rfl <;> simp

/-- The sequence of a cursor key up to its final byte. -/
theorem takeWhile_csiFormat (state : BitVec 32) (final : UInt8) :
    (csiFormat ⟨cursorParams state, [], final⟩).takeWhile (· ≠ 0) =
      escape :: 0x5B :: (cursorParams state ++ [final].takeWhile (· ≠ 0)) := by
  have hparams : (cursorParams state ++ [final]).takeWhile (· ≠ 0) =
      cursorParams state ++ [final].takeWhile (· ≠ 0) :=
    List.takeWhile_append_of_pos (by simpa using cursorParams_ne_zero state)
  rw [csiFormat, List.nil_append, List.takeWhile_cons_of_pos (by decide),
    List.takeWhile_cons_of_pos (by decide), hparams]

theorem keyToString_cursor (strings : KeyStrings) (state : BitVec 32) :
    ∀ entry ∈ cursorKeyvals, keyToString strings entry.2 state =
      csiFormat ⟨cursorParams state, [], entry.1⟩ := by
  intro entry hmem
  have hkey : isCursorKey entry.2 = true ∧ entry.1 ≠ 0 ∧
      (cursorKeyvals.find? (fun e => e.2 = entry.2)).elim 0 (·.1) = entry.1 := by
    simp only [cursorKeyvals, List.mem_cons, List.not_mem_nil, or_false] at hmem
    rcases hmem with rfl | rfl | rfl | rfl | rfl | rfl <;> decide
  obtain ⟨hcursor, hne, hfinal⟩ := hkey
  rw [keyToString, if_pos hcursor, hfinal, takeWhile_csiFormat,
    List.takeWhile_cons_of_pos (by simpa using hne)]
  rfl

theorem keyToString_delete (strings : KeyStrings) (state : BitVec 32) :
    keyToString strings fepDelete state = escape :: 0x5B :: cursorParams state := by
  rw [keyToString, if_pos (by decide),
    show (cursorKeyvals.find? (fun entry => entry.2 = fepDelete)).elim 0 (·.1) = 0 from rfl,
    takeWhile_csiFormat]
  simp

end LibFep
