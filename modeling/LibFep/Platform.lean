import Mathlib.Algebra.Ring.Int.Defs
import Mathlib.Algebra.Ring.Nat
import LibFep.Lib.Word32

/-!
# LibFep — the C platform

What the C standard leaves to the platform and the code depends on: whether plain `char` is
signed, the byte order `configure` records in `WORDS_BIGENDIAN`, the size `BUFSIZ` of the stack
buffers and the largest `unsigned long`. Every function of the model that depends on one of these
takes the platform as an argument, so that a theorem holds on all of them unless it says otherwise.

A definition that embeds a function of the source bears its name, in camel case and without the
prefix `_fep_`.
-/

namespace LibFep

open Lib

structure Platform where
  /-- Plain `char` is signed. -/
  charSigned : Bool
  /-- `WORDS_BIGENDIAN` is defined. -/
  wordsBigEndian : Bool
  /-- `BUFSIZ`: an `int` constant, at least 256. -/
  bufsiz : Nat
  /-- `ULONG_MAX`: at least `2 ^ 32 - 1`. -/
  ulongMax : Nat
  bufsiz_ge : 256 ≤ bufsiz
  bufsiz_lt : bufsiz < 2 ^ 31
  ulongMax_ge : 2 ^ 32 - 1 ≤ ulongMax

/-- GNU/Linux on x86-64. -/
def Platform.x86_64 : Platform where
  charSigned := true
  wordsBigEndian := false
  bufsiz := 8192
  ulongMax := 2 ^ 64 - 1
  bufsiz_ge := by decide
  bufsiz_lt := by decide
  ulongMax_ge := by decide

/-- GNU/Linux on 64-bit ARM, where plain `char` is unsigned. -/
def Platform.aarch64 : Platform where
  charSigned := false
  wordsBigEndian := false
  bufsiz := 8192
  ulongMax := 2 ^ 64 - 1
  bufsiz_ge := by decide
  bufsiz_lt := by decide
  ulongMax_ge := by decide

/-- GNU/Linux on IBM Z, a big-endian host. -/
def Platform.s390x : Platform where
  charSigned := false
  wordsBigEndian := true
  bufsiz := 8192
  ulongMax := 2 ^ 64 - 1
  bufsiz_ge := by decide
  bufsiz_lt := by decide
  ulongMax_ge := by decide

/-- A `char` promoted to `int`. -/
def Platform.charToInt (p : Platform) (c : UInt8) : BitVec 32 :=
  if p.charSigned then c.toBitVec.signExtend 32 else c.toBitVec.setWidth 32

/-- The memory image of a word put in wire order: `bswap_32` under `WORDS_BIGENDIAN`. -/
def Platform.wireWord (p : Platform) (w : BitVec 32) : List UInt8 :=
  storeWord p.wordsBigEndian (if p.wordsBigEndian then bswap32 w else w)

/-- The wire order is little-endian on every platform. -/
theorem Platform.wireWord_eq (p : Platform) (w : BitVec 32) :
    p.wireWord w = [leByte w 0, leByte w 1, leByte w 2, leByte w 3] := by
  unfold Platform.wireWord
  cases p.wordsBigEndian with
  | false => rfl
  -- stored most significant byte first, the swapped word is in the same order
  | true => exact storeWord_bswap32 w

@[simp] theorem Platform.length_wireWord (p : Platform) (w : BitVec 32) :
    (p.wireWord w).length = 4 := by
  simp [Platform.wireWord]

/-! ## Faults

How a run of the C program can end other than by returning. -/

inductive Fault where
  /-- A failed `assert`: the process aborts. -/
  | assertion
  /-- An access outside an object, or through a null pointer. -/
  | badAccess
  /-- A failed `x...alloc`: gnulib's `xalloc_die` exits. -/
  | allocFailed
  deriving DecidableEq, Repr

theorem ok_bind {α β : Type} (a : α) (f : α → Except Fault β) :
    ((Except.ok a : Except Fault α) >>= f) = f a := rfl

/-- `*p`, for a pointer `p` into a string with `p - str = i`. -/
def byteAt (str : List UInt8) (i : Nat) : Except Fault UInt8 :=
  match str[i]? with
  | some b => .ok b
  | none => .error .badAccess

/-- A sequence of two steps returns when both of them do. -/
theorem bind_eq_ok {α β : Type} {x : Except Fault α} {f : α → Except Fault β} {b : β} :
    (x >>= f) = .ok b ↔ ∃ a, x = .ok a ∧ f a = .ok b := by
  cases x with
  | error e =>
    refine iff_of_false (fun h => ?_) (by simp)
    exact absurd (show Except.error e = Except.ok b from h) (by simp)
  | ok a =>
    change f a = .ok b ↔ _
    simp

end LibFep
