import LibFep.Platform

/-!
# LibFep — text in the locale's encoding

`_fep_strwidth`, `_fep_strtrunc`, `_fep_charcount` and `_fep_substring` of `libfep/string.c`. What
they get from the C library and from gnulib's `striconv` depends on the locale, which every function
takes as an argument. A string is the list of its bytes before the NUL.
-/

namespace LibFep

/-- `wchar_t`. -/
abbrev Wchar := BitVec 32

structure Locale where
  /-- `str_iconv (str, "UTF-8", nl_langinfo (CODESET))`, or `NULL`. -/
  strIconv : List UInt8 → Option (List UInt8)
  /-- `mbsrtowcs`: the characters stored, and whether the whole string could be converted. -/
  mbsrtowcs : List UInt8 → List Wchar × Bool
  /-- `wcsrtombs`: at most as many bytes as the second argument says. -/
  wcsrtombs : List Wchar → Nat → List UInt8
  wcwidth : Wchar → Int

/-- The locale `C`: ASCII, in which a control character is not printable. -/
def Locale.c : Locale where
  strIconv str := if str.all (· < 0x80) then some str else none
  mbsrtowcs str :=
    ((str.takeWhile (· < 0x80)).map fun b => b.toBitVec.setWidth 32, str.all (· < 0x80))
  wcsrtombs wcs len := (wcs.map fun wc => ⟨wc.setWidth 8⟩).take len
  wcwidth wc := if 0x20 ≤ wc ∧ wc < 0x7F then 1 else -1

variable (loc : Locale)

/-- `wcswidth`: -1 if a character is not printable. -/
def Locale.wcswidth (wcs : List Wchar) : Int :=
  if ∀ wc ∈ wcs, loc.wcwidth wc ≠ -1 then (wcs.map loc.wcwidth).sum else -1

/-- `_fep_strwidth`. Where the conversion fails, the characters before the failure are counted: the
buffer has a NUL behind them. -/
def strwidth (str : List UInt8) : Int := loc.wcswidth (loc.mbsrtowcs str).1

/-- The loop of `_fep_strtrunc`: the characters before the one that does not fit. -/
def strtruncLoop (width total : Int) : List Wchar → List Wchar
  | [] => []
  | wc :: wcs =>
    let w := loc.wcwidth wc
    if width < total + w then [] else wc :: strtruncLoop width (total + w) wcs

/-- `_fep_strtrunc`, or `NULL`. -/
def strtrunc (str : List UInt8) (width : Int) : Option (List UInt8) :=
  match loc.mbsrtowcs str with
  | (_, false) => none
  | (wcs, true) => some (loc.wcsrtombs (strtruncLoop loc width 0 wcs) str.length)

def charcount (str : List UInt8) : Int :=
  match loc.mbsrtowcs str with
  | (_, false) => -1
  | (wcs, true) => (BitVec.ofNat 32 wcs.length).toInt

/-- `_fep_substring`, or `NULL`. A negative index, as a `size_t`, is out of range. -/
def substring (str : List UInt8) (first last : Int) : Option (List UInt8) :=
  match loc.mbsrtowcs str with
  | (_, false) => none
  | (wcs, true) =>
    let start := min first last
    let stop := max first last
    if start < 0 ∨ wcs.length < start ∨ stop < 0 ∨ wcs.length < stop then none
    else some (loc.wcsrtombs ((wcs.take stop.toNat).drop start.toNat) str.length)

end LibFep
