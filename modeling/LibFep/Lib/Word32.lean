import Mathlib.Algebra.Group.Nat.Defs
import Mathlib.Tactic.Common

/-!
# Words and bytes

A 32-bit word in the memory of a little-endian or big-endian machine, and byte-level copying
between overlapping ranges. The definitions are executable; the lemmas are the ones a proof
about code that reinterprets memory needs:

* **`ofLeBytes_leByte`** — a word is determined by its four bytes;
* **`loadWord_storeWord`** — what is stored is what is loaded, in either byte order;
* **`getElem?_storeWords`** — which byte of which word lies at an offset of an array of words;
* **`getElem?_memmove`** — which byte a `memmove` leaves at an offset.
-/

namespace LibFep.Lib

/-! ## Bytes of a word -/

/-- Byte `i` of a word, counted from the least significant. -/
def leByte (w : BitVec 32) (i : Nat) : UInt8 := ⟨w.extractLsb' (8 * i) 8⟩

/-- The word with the given bytes, least significant first. -/
def ofLeBytes (b0 b1 b2 b3 : UInt8) : BitVec 32 :=
  (b3.toBitVec.setWidth 32 <<< 24) ||| (b2.toBitVec.setWidth 32 <<< 16) |||
    (b1.toBitVec.setWidth 32 <<< 8) ||| b0.toBitVec.setWidth 32

/-- The bytes of a word in the opposite order (glibc's `bswap_32`). -/
def bswap32 (w : BitVec 32) : BitVec 32 :=
  ofLeBytes (leByte w 3) (leByte w 2) (leByte w 1) (leByte w 0)

theorem toNat_leByte (w : BitVec 32) (i : Nat) :
    (leByte w i).toNat = w.toNat / 256 ^ i % 256 := by
  show (w.extractLsb' (8 * i) 8).toNat = _
  simp [BitVec.extractLsb'_toNat, Nat.shiftRight_eq_div_pow, Nat.pow_mul]

/-- Bit `i` of an assembled word is bit `i % 8` of byte `i / 8`, one range of bits at a time. -/
theorem getLsbD_ofLeBytes (b0 b1 b2 b3 : UInt8) (i : Nat) :
    (ofLeBytes b0 b1 b2 b3).getLsbD i =
      if i < 8 then b0.toBitVec.getLsbD i
      else if i < 16 then b1.toBitVec.getLsbD (i - 8)
      else if i < 24 then b2.toBitVec.getLsbD (i - 16)
      else b3.toBitVec.getLsbD (i - 24) := by
  have hout (b : UInt8) (j : Nat) (hj : 8 ≤ j) : b.toBitVec.getLsbD j = false :=
    BitVec.getLsbD_of_ge _ _ hj
  simp only [ofLeBytes, BitVec.getLsbD_or, BitVec.getLsbD_shiftLeft, BitVec.getLsbD_setWidth]
  -- one case for each byte, and one behind the word
  rcases (by omega : i < 8 ∨ (8 ≤ i ∧ i < 16) ∨ (16 ≤ i ∧ i < 24) ∨ (24 ≤ i ∧ i < 32) ∨ 32 ≤ i)
    with h | h | h | h | h
  · simp [h, show i < 32 by omega, show i < 24 by omega, show i < 16 by omega]
  · simp [h.2, show i < 32 by omega, show i < 24 by omega, show ¬ i < 8 by omega,
      show i - 8 < 32 by omega, hout b0 i (by omega)]
  · simp [h.2, show i < 32 by omega, show ¬ i < 16 by omega, show ¬ i < 8 by omega,
      show i - 16 < 32 by omega, show i - 8 < 32 by omega, hout b0 i (by omega),
      hout b1 (i - 8) (by omega)]
  · simp [h.2, show ¬ i < 24 by omega, show ¬ i < 16 by omega, show ¬ i < 8 by omega,
      show i - 24 < 32 by omega, show i - 16 < 32 by omega, show i - 8 < 32 by omega,
      hout b0 i (by omega), hout b1 (i - 8) (by omega), hout b2 (i - 16) (by omega)]
  · simp [show ¬ i < 32 by omega, show ¬ i < 24 by omega, show ¬ i < 16 by omega,
      show ¬ i < 8 by omega, hout b3 (i - 24) (by omega)]

theorem ofLeBytes_leByte (w : BitVec 32) :
    ofLeBytes (leByte w 0) (leByte w 1) (leByte w 2) (leByte w 3) = w := by
  apply BitVec.eq_of_getLsbD_eq
  intro i hi
  rw [getLsbD_ofLeBytes]
  simp only [leByte, BitVec.getLsbD_extractLsb']
  split
  · next h => simp [h]
  split
  · next h => simp [show i - 8 < 8 by omega, show 8 + (i - 8) = i by omega]
  split
  · next h => simp [show i - 16 < 8 by omega, show 16 + (i - 16) = i by omega]
  · simp [show i - 24 < 8 by omega, show 24 + (i - 24) = i by omega]

theorem leByte_ofLeBytes (b0 b1 b2 b3 : UInt8) :
    leByte (ofLeBytes b0 b1 b2 b3) 0 = b0 ∧ leByte (ofLeBytes b0 b1 b2 b3) 1 = b1 ∧
      leByte (ofLeBytes b0 b1 b2 b3) 2 = b2 ∧ leByte (ofLeBytes b0 b1 b2 b3) 3 = b3 := by
  -- a byte is determined by its bits
  have ext (b : UInt8) (k : Nat) (h : ∀ i < 8, (ofLeBytes b0 b1 b2 b3).getLsbD (8 * k + i)
      = b.toBitVec.getLsbD i) : leByte (ofLeBytes b0 b1 b2 b3) k = b := by
    apply UInt8.toBitVec_inj.mp
    apply BitVec.eq_of_getLsbD_eq
    intro i hi
    simpa [leByte, hi] using h i hi
  refine ⟨ext b0 0 ?_, ext b1 1 ?_, ext b2 2 ?_, ext b3 3 ?_⟩ <;> intro i hi
  all_goals rw [getLsbD_ofLeBytes]
  · simp [hi]
  · simp [show ¬ 8 * 1 + i < 8 by omega, show 8 * 1 + i < 16 by omega]
  · simp [show ¬ 8 * 2 + i < 8 by omega, show ¬ 8 * 2 + i < 16 by omega,
      show 8 * 2 + i < 24 by omega]
  · simp [show ¬ 8 * 3 + i < 8 by omega, show ¬ 8 * 3 + i < 16 by omega,
      show ¬ 8 * 3 + i < 24 by omega]

theorem bswap32_bswap32 (w : BitVec 32) : bswap32 (bswap32 w) = w := by
  obtain ⟨h0, h1, h2, h3⟩ := leByte_ofLeBytes (leByte w 3) (leByte w 2) (leByte w 1) (leByte w 0)
  show ofLeBytes _ _ _ _ = w
  rw [bswap32, h0, h1, h2, h3, ofLeBytes_leByte]

/-- A word that reads the same in either order is a palindrome of bytes. -/
theorem bswap32_eq_self_iff (w : BitVec 32) :
    bswap32 w = w ↔ leByte w 0 = leByte w 3 ∧ leByte w 1 = leByte w 2 := by
  obtain ⟨h0, h1, -, -⟩ := leByte_ofLeBytes (leByte w 3) (leByte w 2) (leByte w 1) (leByte w 0)
  constructor
  · intro h
    constructor
    · rw [← h0, ← bswap32, h]
    · rw [← h1, ← bswap32, h]
  · rintro ⟨h03, h12⟩
    conv_rhs => rw [← ofLeBytes_leByte w]
    rw [bswap32, h03, h12]

/-! ## Words in memory -/

/-- The memory image of a word. -/
def storeWord (bigEndian : Bool) (w : BitVec 32) : List UInt8 :=
  if bigEndian then [leByte w 3, leByte w 2, leByte w 1, leByte w 0]
  else [leByte w 0, leByte w 1, leByte w 2, leByte w 3]

/-- The word whose memory image is the given four bytes. -/
def loadWord (bigEndian : Bool) (b0 b1 b2 b3 : UInt8) : BitVec 32 :=
  if bigEndian then ofLeBytes b3 b2 b1 b0 else ofLeBytes b0 b1 b2 b3

@[simp] theorem length_storeWord (bigEndian : Bool) (w : BitVec 32) :
    (storeWord bigEndian w).length = 4 := by
  cases bigEndian <;> rfl

def memByte (bigEndian : Bool) (w : BitVec 32) (r : Nat) : UInt8 :=
  leByte w (if bigEndian then 3 - r else r)

theorem getElem?_storeWord (bigEndian : Bool) (w : BitVec 32) (r : Nat) (hr : r < 4) :
    (storeWord bigEndian w)[r]? = some (memByte bigEndian w r) := by
  rcases (by omega : r = 0 ∨ r = 1 ∨ r = 2 ∨ r = 3) with rfl | rfl | rfl | rfl <;>
    cases bigEndian <;> rfl

theorem loadWord_storeWord (bigEndian : Bool) (w : BitVec 32) :
    loadWord bigEndian (memByte bigEndian w 0) (memByte bigEndian w 1) (memByte bigEndian w 2)
      (memByte bigEndian w 3) = w := by
  cases bigEndian <;> exact ofLeBytes_leByte w

theorem memByte_loadWord (bigEndian : Bool) (b0 b1 b2 b3 : UInt8) :
    memByte bigEndian (loadWord bigEndian b0 b1 b2 b3) 0 = b0 ∧
      memByte bigEndian (loadWord bigEndian b0 b1 b2 b3) 1 = b1 ∧
      memByte bigEndian (loadWord bigEndian b0 b1 b2 b3) 2 = b2 ∧
      memByte bigEndian (loadWord bigEndian b0 b1 b2 b3) 3 = b3 := by
  cases bigEndian with
  | false => exact leByte_ofLeBytes b0 b1 b2 b3
  | true =>
    obtain ⟨h0, h1, h2, h3⟩ := leByte_ofLeBytes b3 b2 b1 b0
    exact ⟨h3, h2, h1, h0⟩

/-- Two words agree in memory after the first byte. -/
def SameAfterFirstByte (bigEndian : Bool) (a b : BitVec 32) : Prop :=
  if bigEndian then a.toNat % 2 ^ 24 = b.toNat % 2 ^ 24 else a.toNat / 2 ^ 8 = b.toNat / 2 ^ 8

instance (bigEndian : Bool) (a b : BitVec 32) : Decidable (SameAfterFirstByte bigEndian a b) :=
  inferInstanceAs (Decidable (if bigEndian then _ else _))

theorem sameAfterFirstByte_iff (bigEndian : Bool) (a b : BitVec 32) :
    SameAfterFirstByte bigEndian a b ↔ memByte bigEndian a 1 = memByte bigEndian b 1 ∧
      memByte bigEndian a 2 = memByte bigEndian b 2 ∧
      memByte bigEndian a 3 = memByte bigEndian b 3 := by
  have ha := a.isLt
  have hb := b.isLt
  unfold SameAfterFirstByte memByte
  -- the bytes after the first are the quotient, or the remainder on a big-endian machine
  simp only [← UInt8.toNat_inj, toNat_leByte]
  cases bigEndian <;> simp <;> omega

/-- Copying the first byte of `b` over that of `a` makes `b` exactly when the two agree in the
others. -/
theorem loadWord_first_eq_iff (bigEndian : Bool) (a b : BitVec 32) :
    loadWord bigEndian (memByte bigEndian b 0) (memByte bigEndian a 1) (memByte bigEndian a 2)
      (memByte bigEndian a 3) = b ↔ SameAfterFirstByte bigEndian a b := by
  rw [sameAfterFirstByte_iff]
  obtain ⟨-, h1, h2, h3⟩ := memByte_loadWord bigEndian (memByte bigEndian b 0)
    (memByte bigEndian a 1) (memByte bigEndian a 2) (memByte bigEndian a 3)
  constructor
  · intro h
    rw [h] at h1 h2 h3
    exact ⟨h1.symm, h2.symm, h3.symm⟩
  · rintro ⟨e1, e2, e3⟩
    rw [e1, e2, e3, loadWord_storeWord]

/-- A stored word in the other byte order is the stored `bswap32` of the word. -/
theorem storeWord_bswap32 (w : BitVec 32) :
    storeWord true (bswap32 w) = storeWord false w := by
  obtain ⟨h0, h1, h2, h3⟩ := leByte_ofLeBytes (leByte w 3) (leByte w 2) (leByte w 1) (leByte w 0)
  simp only [storeWord, bswap32, h0, h1, h2, h3, if_true, Bool.false_eq_true, if_false]

def storeWords (bigEndian : Bool) (ws : List (BitVec 32)) : List UInt8 :=
  ws.flatMap (storeWord bigEndian)

/-- The word at index `j` of a memory image. -/
def wordAt (bigEndian : Bool) (mem : List UInt8) (j : Nat) : BitVec 32 :=
  loadWord bigEndian (mem.getD (4 * j) 0) (mem.getD (4 * j + 1) 0) (mem.getD (4 * j + 2) 0)
    (mem.getD (4 * j + 3) 0)

/-- The first `n` words of a memory image. -/
def loadWords (bigEndian : Bool) (n : Nat) (mem : List UInt8) : List (BitVec 32) :=
  (List.range n).map (wordAt bigEndian mem)

@[simp] theorem length_loadWords (bigEndian : Bool) (n : Nat) (mem : List UInt8) :
    (loadWords bigEndian n mem).length = n := by
  simp [loadWords]

theorem getElem?_loadWords (bigEndian : Bool) (n : Nat) (mem : List UInt8) {j : Nat} (hj : j < n) :
    (loadWords bigEndian n mem)[j]? = some (wordAt bigEndian mem j) := by
  rw [loadWords, List.getElem?_map, List.getElem?_range hj, Option.map_some]

@[simp] theorem length_storeWords (bigEndian : Bool) (ws : List (BitVec 32)) :
    (storeWords bigEndian ws).length = 4 * ws.length := by
  induction ws with
  | nil => rfl
  | cons w ws ih =>
    simp only [storeWords, List.flatMap_cons, List.length_append, length_storeWord,
      List.length_cons] at ih ⊢
    omega

/-- Byte `r` of word `j` lies at offset `4 * j + r` of the array. -/
theorem getElem?_storeWords (bigEndian : Bool) (ws : List (BitVec 32)) (j r : Nat) (hr : r < 4) :
    (storeWords bigEndian ws)[4 * j + r]? = ws[j]?.map (memByte bigEndian · r) := by
  induction ws generalizing j with
  | nil => simp [storeWords]
  | cons w ws ih =>
    simp only [storeWords, List.flatMap_cons] at ih ⊢
    cases j with
    | zero =>
      rw [List.getElem?_append_left (by rw [length_storeWord]; omega)]
      simpa using getElem?_storeWord bigEndian w r hr
    | succ j =>
      rw [List.getElem?_append_right (by rw [length_storeWord]; omega), length_storeWord,
        show 4 * (j + 1) + r - 4 = 4 * j + r from by omega, ih]
      simp

/-- A word of a memory image depends on its own four bytes only. -/
theorem wordAt_congr {bigEndian : Bool} {mem mem' : List UInt8} {j k : Nat}
    (h : ∀ r < 4, mem[4 * j + r]? = mem'[4 * k + r]?) :
    wordAt bigEndian mem j = wordAt bigEndian mem' k := by
  simp only [wordAt, List.getD_eq_getElem?_getD]
  have h0 : mem[4 * j]? = mem'[4 * k]? := h 0 (by omega)
  rw [h0, h 1 (by omega), h 2 (by omega), h 3 (by omega)]

theorem wordAt_storeWords (bigEndian : Bool) (ws : List (BitVec 32)) (j : Nat) (w : BitVec 32)
    (hw : ws[j]? = some w) : wordAt bigEndian (storeWords bigEndian ws) j = w := by
  have hbyte (r : Nat) (hr : r < 4) :
      (storeWords bigEndian ws)[4 * j + r]? = some (memByte bigEndian w r) := by
    rw [getElem?_storeWords bigEndian ws j r hr, hw]; rfl
  have h0 : (storeWords bigEndian ws)[4 * j]? = some (memByte bigEndian w 0) := hbyte 0 (by omega)
  simp only [wordAt, List.getD_eq_getElem?_getD, h0, hbyte 1 (by omega), hbyte 2 (by omega),
    hbyte 3 (by omega), Option.getD_some]
  exact loadWord_storeWord bigEndian w

/-! ## Overlapping copies -/

/-- The memory after `memmove (mem + dst, mem + src, n)`. -/
def memmove (mem : List UInt8) (dst src n : Nat) : List UInt8 :=
  mem.take dst ++ (mem.drop src).take n ++ mem.drop (dst + n)

/-- The byte a `memmove` inside the memory leaves at offset `o`. -/
theorem getElem?_memmove (mem : List UInt8) (dst src n o : Nat) (hdst : dst + n ≤ mem.length)
    (hsrc : src + n ≤ mem.length) :
    (memmove mem dst src n)[o]? =
      if dst ≤ o ∧ o < dst + n then mem[src + (o - dst)]? else mem[o]? := by
  have hpre : (mem.take dst).length = dst := by simp; omega
  have hmid : ((mem.drop src).take n).length = n := by simp; omega
  rw [memmove, List.append_assoc]
  -- before, inside and behind the range that is written
  rcases (by omega : o < dst ∨ (dst ≤ o ∧ o < dst + n) ∨ dst + n ≤ o) with h | h | h
  · rw [List.getElem?_append_left (by omega), if_neg (by omega), List.getElem?_take_of_lt h]
  · rw [List.getElem?_append_right (by omega), hpre, List.getElem?_append_left (by omega),
      if_pos h, List.getElem?_take_of_lt (by omega), List.getElem?_drop]
  · rw [List.getElem?_append_right (by omega), hpre, List.getElem?_append_right (by omega), hmid,
      if_neg (by omega), List.getElem?_drop]
    congr 1
    omega

end LibFep.Lib
