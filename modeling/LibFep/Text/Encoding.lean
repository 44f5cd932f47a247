import Mathlib.Data.List.Infix
import Mathlib.Data.List.TakeWhile
import LibFep.Lib.Fitting
import LibFep.Text.Locale

/-!
# LibFep — what the C library does with characters

The functions of the locale are not part of the code. What the code relies on: a string that can be
converted is made of the encodings of its characters, and any part of these is converted back and forth.

Nothing is assumed of `str_iconv` but that it keeps the empty string: what it returns need not be valid,
for between two encodings of the same name it only copies.

* **`strtrunc_eq`**, **`substring_eq`** — the two functions that rebuild a string, character by character.
* **`encoding_c`** — the locale `C`.
-/

namespace LibFep

open Lib

/-- The characters of a string, up to the first one that cannot be converted. -/
def Locale.chars (loc : Locale) (str : List UInt8) : List Wchar := (loc.mbsrtowcs str).1

/-- The whole string can be converted. -/
def Locale.Valid (loc : Locale) (str : List UInt8) : Prop := (loc.mbsrtowcs str).2 = true

instance (loc : Locale) : DecidablePred loc.Valid := fun str =>
  inferInstanceAs (Decidable ((loc.mbsrtowcs str).2 = true))

/-- `mbsrtowcs` and `wcsrtombs` in a locale that gives every character an encoding. -/
structure Locale.Encoding (loc : Locale) (encode : Wchar → List UInt8) : Prop where
  encode_ne_nil : ∀ wc, encode wc ≠ []
  valid_nil : loc.Valid []
  eq_flatMap : ∀ {str wcs}, loc.mbsrtowcs str = (wcs, true) → str = wcs.flatMap encode
  mbsrtowcs_part : ∀ {str wcs part}, loc.mbsrtowcs str = (wcs, true) → part <:+: wcs →
    loc.mbsrtowcs (part.flatMap encode) = (part, true)
  wcsrtombs_part : ∀ {str wcs part} {len : Nat}, loc.mbsrtowcs str = (wcs, true) → part <:+: wcs →
    (part.flatMap encode).length ≤ len → loc.wcsrtombs part len = part.flatMap encode
  strIconv_nil : loc.strIconv [] = some []

/-- `wcwidth` is -1 for a character that is not printable, and at most two columns for the others. -/
def Locale.Columns (loc : Locale) : Prop :=
  ∀ wc, loc.wcwidth wc = -1 ∨ loc.wcwidth wc = 0 ∨ loc.wcwidth wc = 1 ∨ loc.wcwidth wc = 2

variable {loc : Locale} {encode : Wchar → List UInt8}

theorem Locale.Valid.mbsrtowcs_eq {str : List UInt8} (h : loc.Valid str) :
    loc.mbsrtowcs str = (loc.chars str, true) := Prod.ext rfl h

theorem strtruncLoop_eq_fit (width total : Int) (wcs : List Wchar) :
    strtruncLoop loc width total wcs = fit loc.wcwidth width total wcs := by
  induction wcs generalizing total with
  | nil => rfl
  | cons wc wcs ih => rw [strtruncLoop, fit, ih]

theorem Locale.Encoding.length_part_le (h : loc.Encoding encode) {str : List UInt8}
    {wcs part : List Wchar} (hstr : loc.mbsrtowcs str = (wcs, true)) (hpart : part <:+: wcs) :
    (part.flatMap encode).length ≤ str.length := by
  obtain ⟨a, b, rfl⟩ := hpart
  rw [h.eq_flatMap hstr]
  simp only [List.flatMap_append, List.length_append]
  omega

@[simp] theorem Locale.Encoding.chars_nil (h : loc.Encoding encode) : loc.chars [] = [] := by
  have hempty := h.eq_flatMap h.valid_nil.mbsrtowcs_eq
  refine List.eq_nil_iff_forall_not_mem.mpr fun wc hwc => ?_
  exact h.encode_ne_nil wc (List.flatMap_eq_nil_iff.mp hempty.symm wc hwc)

/-- A part of a string is rebuilt from its characters. -/
theorem Locale.Encoding.wcsrtombs_eq (h : loc.Encoding encode) {str : List UInt8}
    {wcs part : List Wchar} (hstr : loc.mbsrtowcs str = (wcs, true)) (hpart : part <:+: wcs) :
    loc.wcsrtombs part str.length = part.flatMap encode :=
  h.wcsrtombs_part hstr hpart (h.length_part_le hstr hpart)

/-- `_fep_strtrunc` returns the characters that fit. -/
theorem strtrunc_eq (h : loc.Encoding encode) {str : List UInt8} (hstr : loc.Valid str)
    (width : Int) :
    ∃ trunc, strtrunc loc str width = some trunc ∧ loc.Valid trunc ∧
      loc.chars trunc = fit loc.wcwidth width 0 (loc.chars str) := by
  have hpart : fit loc.wcwidth width 0 (loc.chars str) <:+: loc.chars str :=
    (fit_isPrefix loc.wcwidth width 0 (loc.chars str)).isInfix
  have hback := h.mbsrtowcs_part hstr.mbsrtowcs_eq hpart
  refine ⟨_, ?_, congrArg Prod.snd hback, congrArg Prod.fst hback⟩
  simp only [strtrunc, hstr.mbsrtowcs_eq, strtruncLoop_eq_fit, h.wcsrtombs_eq hstr.mbsrtowcs_eq hpart]

/-- `NULL` for a string that cannot be converted. -/
theorem strtrunc_of_not_valid {str : List UInt8} (h : ¬ loc.Valid str) (width : Int) :
    strtrunc loc str width = none := by
  unfold strtrunc
  split
  · rfl
  · next wcs hconv => exact absurd (congrArg Prod.snd hconv) h

/-- A string is made of the encodings of its characters. -/
theorem Locale.Encoding.flatMap_chars (h : loc.Encoding encode) {str : List UInt8}
    (hstr : loc.Valid str) : (loc.chars str).flatMap encode = str :=
  (h.eq_flatMap hstr.mbsrtowcs_eq).symm

/-- `_fep_substring` returns the characters of the range. -/
theorem substring_eq (h : loc.Encoding encode) {str : List UInt8} {wcs : List Wchar}
    (hstr : loc.mbsrtowcs str = (wcs, true)) {first last : Nat} (hle : first ≤ last)
    (hlast : last ≤ wcs.length) :
    substring loc str first last = some (((wcs.take last).drop first).flatMap encode) := by
  have htake : wcs.take last <:+: wcs := List.IsPrefix.isInfix <| List.take_prefix last wcs
  have hpart : (wcs.take last).drop first <:+: wcs :=
    ((wcs.take last).drop_suffix first).isInfix.trans htake
  have hmin : min (first : Int) last = first := by omega
  have hmax : max (first : Int) last = last := by omega
  simp only [substring, hstr, hmin, hmax, Int.toNat_natCast, h.wcsrtombs_eq hstr hpart]
  exact if_neg (by omega)

/-! ## The locale `C` -/

/-- ASCII, a byte for every character. -/
def encodeAscii (wc : Wchar) : List UInt8 := [⟨wc.setWidth 8⟩]

theorem flatMap_encodeAscii (wcs : List Wchar) :
    wcs.flatMap encodeAscii = wcs.map fun wc => ⟨wc.setWidth 8⟩ := by
  induction wcs with
  | nil => rfl
  | cons wc wcs ih => rw [List.flatMap_cons, ih, List.map_cons]; rfl

theorem mbsrtowcs_c_iff {str : List UInt8} {wcs : List Wchar} :
    Locale.c.mbsrtowcs str = (wcs, true) ↔
      (∀ b ∈ str, b < 0x80) ∧ wcs = str.map fun b => b.toBitVec.setWidth 32 := by
  show ((str.takeWhile (· < 0x80)).map fun b => b.toBitVec.setWidth 32, str.all (· < 0x80)) = _ ↔ _
  rw [Prod.mk.injEq, List.all_eq_true]
  simp only [decide_eq_true_eq]
  constructor
  · rintro ⟨rfl, hall⟩
    refine ⟨hall, ?_⟩
    rw [List.takeWhile_eq_self_iff.mpr (by simpa using hall)]
  · rintro ⟨hall, rfl⟩
    refine ⟨?_, hall⟩
    rw [List.takeWhile_eq_self_iff.mpr (by simpa using hall)]

theorem encodeAscii_setWidth (str : List UInt8) :
    (str.map fun b => b.toBitVec.setWidth 32).flatMap encodeAscii = str := by
  rw [flatMap_encodeAscii, List.map_map]
  refine (List.map_congr_left fun b _ => ?_).trans (List.map_id str)
  show (⟨(b.toBitVec.setWidth 32).setWidth 8⟩ : UInt8) = b
  rw [BitVec.setWidth_setWidth_of_le _ (by decide), BitVec.setWidth_eq]

theorem encoding_c : Locale.c.Encoding encodeAscii where
  encode_ne_nil wc := List.cons_ne_nil _ _
  valid_nil := rfl
  eq_flatMap := by
    intro str wcs hstr
    rw [(mbsrtowcs_c_iff.mp hstr).2, encodeAscii_setWidth]
  mbsrtowcs_part := by
    intro str wcs part hstr hpart
    obtain ⟨hall, rfl⟩ := mbsrtowcs_c_iff.mp hstr
    obtain ⟨a, c, hsplit⟩ := hpart
    obtain ⟨str₁, str₂, rfl, hfirst, rfl⟩ := List.map_eq_append_iff.mp hsplit.symm
    obtain ⟨str₃, str₄, rfl, -, rfl⟩ := List.map_eq_append_iff.mp hfirst
    rw [encodeAscii_setWidth, mbsrtowcs_c_iff]
    exact ⟨fun b hb => hall b (by simp [hb]), rfl⟩
  wcsrtombs_part := by
    intro str wcs part len _ _ hlen
    rw [flatMap_encodeAscii] at hlen ⊢
    exact List.take_of_length_le hlen
  strIconv_nil := rfl

theorem columns_c : Locale.c.Columns := by
  intro wc
  by_cases hprint : 0x20 ≤ wc ∧ wc < 0x7F
  · exact Or.inr (Or.inr (Or.inl (if_pos hprint)))
  · exact Or.inl (if_neg hprint)

end LibFep
