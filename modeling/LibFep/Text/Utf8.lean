import LibFep.Text.Encoding

/-!
# LibFep — a UTF-8 locale

The locales that the server is mostly run in. `str_iconv` has nothing to convert there and returns a copy,
also of a string that is not valid. Characters of East Asian scripts take two columns.

* **`decodeUtf8_flatMap`**, **`eq_of_decodeUtf8`** — decoding undoes encoding.
* **`encoding_utf8`**, **`columns_utf8`** — what the code relies on.
-/

namespace LibFep

/-! ## Encoding and decoding -/

def Wchar.ofChar (c : Char) : Wchar := c.val.toBitVec

def Wchar.toChar (wc : Wchar) : Char := Char.ofNat wc.toNat

@[simp] theorem Wchar.toChar_ofChar (c : Char) : (Wchar.ofChar c).toChar = c := Char.ofNat_toNat c

def encodeUtf8 (wc : Wchar) : List UInt8 := String.utf8EncodeChar wc.toChar

/-- The first character of a string. -/
def utf8First (str : List UInt8) : Option Char := str.toByteArray.utf8DecodeChar? 0

/-- The characters of a string from behind the next `skip` bytes on, and whether it is valid. -/
def decodeUtf8 : Nat → List UInt8 → List Wchar × Bool
  | _, [] => ([], true)
  | skip + 1, _ :: str => decodeUtf8 skip str
  | 0, b :: str =>
    match utf8First (b :: str) with
    | none => ([], false)
    | some c =>
      match decodeUtf8 (c.utf8Size - 1) str with
      | (wcs, valid) => (.ofChar c :: wcs, valid)

/-- The encodings of the characters, as long as there is room for the whole of one. -/
def encodeWithin : List Wchar → Nat → List UInt8
  | [], _ => []
  | wc :: wcs, len =>
    if len < (encodeUtf8 wc).length then []
    else encodeUtf8 wc ++ encodeWithin wcs (len - (encodeUtf8 wc).length)

/-- The columns of a character: none for one that combines, two in East Asian scripts. A control character,
and what is no character, is not printable. -/
def wcwidthUtf8 (wc : Wchar) : Int :=
  let n := wc.toNat
  if n < 0x20 ∨ (0x7F ≤ n ∧ n < 0xA0) ∨ ¬ n.isValidChar then -1
  else if 0x300 ≤ n ∧ n < 0x370 then 0
  else if (0x1100 ≤ n ∧ n < 0x1160) ∨ (0x2E80 ≤ n ∧ n < 0x303F) ∨ (0x3041 ≤ n ∧ n < 0xA4D0) ∨
      (0xAC00 ≤ n ∧ n < 0xD7A4) ∨ (0xF900 ≤ n ∧ n < 0xFB00) ∨ (0xFE30 ≤ n ∧ n < 0xFE70) ∨
      (0xFF00 ≤ n ∧ n < 0xFF61) ∨ (0xFFE0 ≤ n ∧ n < 0xFFE7) ∨ (0x20000 ≤ n ∧ n < 0x3FFFE) then 2
  else 1

def Locale.utf8 : Locale where
  strIconv str := some str
  mbsrtowcs := decodeUtf8 0
  wcsrtombs := encodeWithin
  wcwidth := wcwidthUtf8

/-! ## Round trips -/

theorem decodeUtf8_skip (skip : Nat) (str : List UInt8) :
    decodeUtf8 skip str = decodeUtf8 0 (str.drop skip) := by
  induction str generalizing skip with
  | nil => cases skip <;> rfl
  | cons b str ih =>
    cases skip with
    | zero => rfl
    | succ skip => exact ih skip

theorem utf8First_append (c : Char) (str : List UInt8) :
    utf8First (String.utf8EncodeChar c ++ str) = some c := by
  rw [utf8First, List.toByteArray_append]
  exact ByteArray.utf8DecodeChar?_utf8EncodeChar_append

/-- The first character is what the string begins with. -/
theorem eq_append_of_utf8First {str : List UInt8} {c : Char} (h : utf8First str = some c) :
    ∃ rest, str = String.utf8EncodeChar c ++ rest := by
  obtain ⟨rest, hrest⟩ := ByteArray.exists_of_utf8DecodeChar?_eq_some h
  refine ⟨rest.data.toList, ?_⟩
  rw [← List.toByteArray_inj, hrest, List.toByteArray_append]
  congr 1
  exact ByteArray.ext (by simp)

theorem decodeUtf8_cons (c : Char) (str : List UInt8) :
    decodeUtf8 0 (String.utf8EncodeChar c ++ str) =
      (.ofChar c :: (decodeUtf8 0 str).1, (decodeUtf8 0 str).2) := by
  obtain ⟨b, tail, henc⟩ := List.exists_cons_of_ne_nil (@String.utf8EncodeChar_ne_nil c)
  have hfirst := utf8First_append c str
  have hlen := String.length_utf8EncodeChar c
  rw [henc] at hfirst hlen ⊢
  have hrest : decodeUtf8 (c.utf8Size - 1) (tail ++ str) = decodeUtf8 0 str := by
    rw [decodeUtf8_skip, ← hlen, List.length_cons, Nat.add_sub_cancel, List.drop_left]
  rw [List.cons_append] at hfirst ⊢
  rw [decodeUtf8, hfirst]
  simp only [hrest]

/-- The code point of a character. -/
def Wchar.IsChar (wc : Wchar) : Prop := .ofChar wc.toChar = wc

theorem decodeUtf8_flatMap {wcs : List Wchar} (h : ∀ wc ∈ wcs, wc.IsChar) :
    decodeUtf8 0 (wcs.flatMap encodeUtf8) = (wcs, true) := by
  induction wcs with
  | nil => rfl
  | cons wc wcs ih =>
    obtain ⟨hwc, hwcs⟩ := List.forall_mem_cons.mp h
    rw [List.flatMap_cons, encodeUtf8, decodeUtf8_cons, ih hwcs, hwc]

/-- Induction on the number of bytes: the first character takes at least one. -/
theorem eq_of_decodeUtf8 {str : List UInt8} {wcs : List Wchar}
    (h : decodeUtf8 0 str = (wcs, true)) :
    str = wcs.flatMap encodeUtf8 ∧ ∀ wc ∈ wcs, wc.IsChar := by
  induction hlen : str.length using Nat.strong_induction_on generalizing str wcs with
  | _ n ih =>
    cases str with
    | nil =>
      obtain rfl : [] = wcs := congrArg Prod.fst h
      exact ⟨rfl, List.forall_mem_nil _⟩
    | cons b str =>
      cases hfirst : utf8First (b :: str) with
      | none =>
        rw [decodeUtf8, hfirst] at h
        exact absurd (congrArg Prod.snd h) Bool.false_ne_true
      | some c =>
        obtain ⟨rest, hrest⟩ := eq_append_of_utf8First hfirst
        rw [hrest, decodeUtf8_cons] at h
        obtain ⟨rfl, hvalid⟩ := Prod.mk.inj h
        have hlt : rest.length < n := by
          have hpos := List.length_pos_iff.mpr (@String.utf8EncodeChar_ne_nil c)
          rw [← hlen, hrest, List.length_append]
          omega
        obtain ⟨hstr, hchars⟩ := ih _ hlt (Prod.ext rfl hvalid) rfl
        refine ⟨?_, List.forall_mem_cons.mpr ⟨congrArg _ (Wchar.toChar_ofChar c), hchars⟩⟩
        rw [hrest, List.flatMap_cons, encodeUtf8, Wchar.toChar_ofChar, ← hstr]

theorem encodeWithin_of_length_le {wcs : List Wchar} {len : Nat}
    (h : (wcs.flatMap encodeUtf8).length ≤ len) : encodeWithin wcs len = wcs.flatMap encodeUtf8 := by
  induction wcs generalizing len with
  | nil => rfl
  | cons wc wcs ih =>
    rw [List.flatMap_cons, List.length_append] at h
    rw [encodeWithin, if_neg (by omega), ih (by omega), List.flatMap_cons]

theorem encoding_utf8 : Locale.utf8.Encoding encodeUtf8 where
  encode_ne_nil _ := String.utf8EncodeChar_ne_nil
  valid_nil := rfl
  eq_flatMap hstr := (eq_of_decodeUtf8 hstr).1
  mbsrtowcs_part hstr hpart :=
    decodeUtf8_flatMap fun wc hwc => (eq_of_decodeUtf8 hstr).2 wc (hpart.subset hwc)
  wcsrtombs_part _ _ hlen := encodeWithin_of_length_le hlen
  strIconv_nil := rfl

theorem columns_utf8 : Locale.utf8.Columns := by
  intro wc
  show wcwidthUtf8 wc = -1 ∨ wcwidthUtf8 wc = 0 ∨ wcwidthUtf8 wc = 1 ∨ wcwidthUtf8 wc = 2
  unfold wcwidthUtf8
  dsimp only
  split
  · exact Or.inl rfl
  · split
    · exact Or.inr (Or.inl rfl)
    · split
      · exact Or.inr (Or.inr (Or.inr rfl))
      · exact Or.inr (Or.inr (Or.inl rfl))

end LibFep
