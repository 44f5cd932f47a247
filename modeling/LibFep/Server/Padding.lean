import LibFep.Server.ClearScreen
import LibFep.Server.CStrings
import LibFep.Term.CsiScan

/-!
# LibFep — the padding of terminfo strings

`remove_padding` of `fep/fep.c` once more, with the object that it returns: a copy of the whole string, or one
that it allocates for the part in front of the padding and the part behind it. The digits are looked for
from the `$` on.

* **`removePaddingObject_eq`** — the object is a copy of the whole string.
* **`removesPadding_iff`** — the strings that it is meant to return unchanged are the only ones that are
  right.
-/

namespace LibFep

/-! ## `remove_padding` -/

/-- `memcpy (dest + i, bytes, n)`. -/
def memcpyAt (dest : List UInt8) (i : Nat) (bytes : List UInt8) : Except Fault (List UInt8) :=
  if i + bytes.length ≤ dest.length then
    .ok (dest.take i ++ (bytes ++ dest.drop (i + bytes.length)))
  else .error .badAccess

/-- `remove_padding`, with the object that it returns. `junk` is what `xcharalloc` leaves in a new object. -/
def removePaddingObject (junk : (n : Nat) → Vector UInt8 n) (str : List UInt8) :
    Except Fault (List UInt8) :=
  let len := str.length
  let object := str ++ [0]
  match memmem str [0x24, 0x3C] with
  | none => .ok object
  | some start => do
    let p ← skipWhile object (fun c => c ≠ 0 && isDigit c) start (object.length - start)
    if (← byteAt object p) ≠ 0x3E then return object
    let p := p + 1
    let dest := (junk (len - (p - start) + 1)).toList
    let dest ← memcpyAt dest 0 (str.take start)
    memcpyAt dest start (str.drop p)

/-- **The object is a copy of the string** that `removePadding` computes, which is the string itself: the loop
over the digits stops at the `$`. -/
theorem removePaddingObject_eq (junk : (n : Nat) → Vector UInt8 n) (str : List UInt8) :
    removePaddingObject junk str = .ok (removePadding str ++ [0]) := by
  rw [removePadding_eq_self]
  unfold removePaddingObject
  cases hmatch : memmem str [0x24, 0x3C] with
  | none => rfl
  | some start =>
    obtain ⟨rest, hdrop⟩ := drop_of_memmem hmatch
    have hobject : (str ++ [0]).drop start = 0x24 :: (0x3C :: (rest ++ [0])) := by
      have hle : start ≤ str.length := by
        by_contra hgt
        rw [List.drop_eq_nil_of_le (by omega)] at hdrop
        exact absurd hdrop (by simp)
      rw [List.drop_append_of_le_length hle, hdrop]
      rfl
    have hget : byteAt (str ++ [0]) start = .ok 0x24 := byteAt_of_drop hobject
    have hskip : skipWhile (str ++ [0]) (fun c => c ≠ 0 && isDigit c) start
        ((str ++ [0]).length - start) = .ok start := by
      rw [← List.length_drop, hobject, List.length_cons, skipWhile, hget]
      rfl
    simp only [hskip, ok_bind, hget]
    rfl

/-! ## What it is meant to do -/

/-- The string is `a`, `$<`, the digits `d`, `>` and `b`, and the `$<` is the first one. -/
structure Padded (str a d b : List UInt8) : Prop where
  eq : str = a ++ (0x24 :: 0x3C :: (d ++ 0x3E :: b))
  first : ¬ [0x24, 0x3C] <:+: a
  digits : ∀ c ∈ d, isDigit c = true

/-- An object is returned that starts with the text and a NUL. -/
def ReturnsText (junk : (n : Nat) → Vector UInt8 n) (str text : List UInt8) : Prop :=
  ∃ object, removePaddingObject junk str = .ok object ∧ readString object = .ok text

/-- A string with a padding is returned without it, and any other one unchanged. -/
structure RemovesPadding (junk : (n : Nat) → Vector UInt8 n) (str : List UInt8) : Prop where
  padded : ∀ a d b, Padded str a d b → ReturnsText junk str (a ++ b)
  other : (∀ a d b, ¬ Padded str a d b) → ReturnsText junk str str

theorem returnsText_iff (junk : (n : Nat) → Vector UInt8 n) {str text : List UInt8} (h : 0 ∉ str) :
    ReturnsText junk str text ↔ text = str := by
  have hread : readString (str ++ [0]) = .ok str := readString_eq_ok_iff.mpr ⟨h, [], rfl⟩
  have hobject := removePaddingObject_eq junk str
  rw [removePadding_eq_self] at hobject
  constructor
  · rintro ⟨object, hobject', htext⟩
    obtain rfl := Except.ok.inj (hobject.symm.trans hobject')
    exact Except.ok.inj (htext.symm.trans hread)
  · rintro rfl
    exact ⟨text ++ [0], hobject, hread⟩

/-- **No padding is ever removed**: the strings for which the function is right are those without one. -/
theorem removesPadding_iff (junk : (n : Nat) → Vector UInt8 n) {str : List UInt8} (h : 0 ∉ str) :
    RemovesPadding junk str ↔ ∀ a d b, ¬ Padded str a d b := by
  constructor
  · intro hremoves a d b hpadded
    have htext : a ++ b = str := (returnsText_iff junk h).mp (hremoves.padded a d b hpadded)
    -- what is to be removed is three bytes long at least
    have hlen := congrArg List.length (htext.trans hpadded.eq)
    simp only [List.length_append, List.length_cons] at hlen
    omega
  · intro hnone
    exact ⟨fun a d b hpadded => absurd hpadded (hnone a d b),
      fun _ => (returnsText_iff junk h).mpr rfl⟩

/-- `ESC [ K $<3>`, the `clr_eos` of a terminal that needs a delay. -/
theorem removesPadding_iff_delay :
    RemovesPadding (fun n => Vector.replicate n 0xAA) [0x1B, 0x5B, 0x4B, 0x24, 0x3C, 0x33, 0x3E] ↔
      ∀ a d b, ¬ Padded [0x1B, 0x5B, 0x4B, 0x24, 0x3C, 0x33, 0x3E] a d b :=
  removesPadding_iff (fun n => Vector.replicate n 0xAA) (by simp)

/-- `ESC [ J $<50>` is returned with its padding. -/
theorem not_removesPadding_fifty :
    ¬ ∀ (junk : (n : Nat) → Vector UInt8 n) (str : List UInt8), 0 ∉ str → RemovesPadding junk str := by
  intro h
  have hnul : (0 : UInt8) ∉ [0x1B, 0x5B, 0x4A, 0x24, 0x3C, 0x35, 0x30, 0x3E] := by simp
  have hpadded : Padded [0x1B, 0x5B, 0x4A, 0x24, 0x3C, 0x35, 0x30, 0x3E] [0x1B, 0x5B, 0x4A]
      [0x35, 0x30] [] := {
    eq := rfl
    first := by decide
    digits := List.forall_mem_cons.mpr ⟨rfl, List.forall_mem_singleton.mpr rfl⟩ }
  have hreturns := (h (fun n => Vector.replicate n 0) _ hnul).padded _ _ _ hpadded
  have htext := (returnsText_iff _ hnul).mp hreturns
  exact absurd htext (by simp)

end LibFep
