import LibFep.Term.Sent
import LibFep.Text.Truncate

/-!
# LibFep — blanking the text at the cursor

`_fep_output_cursor_text` of `fep/output.c` draws a text truncated to the columns that are left on the
row, and blanks it by as many spaces as the whole text has columns, but not more than are left. The
first is found character by character, the second from the total.

* **`min_columns_eq_iff`** — when the two are the same.
* **`blanksDrawn_iff`** — what this says of a text that is drawn and then blanked.
-/

namespace LibFep

open Lib

variable {loc : Locale} {encode : Wchar → List UInt8}

/-! ## The two widths -/

theorem strwidth_of_printable {str : List UInt8} (h : ∀ wc ∈ loc.chars str, loc.Printable wc) :
    strwidth loc str = loc.columns (loc.chars str) := by
  rw [columns_of_printable h]
  exact if_pos h

theorem strwidth_of_not_printable {str : List UInt8}
    (h : ¬ ∀ wc ∈ loc.chars str, loc.Printable wc) : strwidth loc str = -1 := if_neg h

/-- A wide character at the margin is not drawn, but its columns are blanked as far as the margin: the
widths are the same if nothing is left out, or if what is drawn ends at the margin. -/
theorem min_columns_eq_iff (hcols : loc.Columns) {wcs : List Wchar} {width : Int}
    (hwidth : 0 ≤ width) (hprint : ∀ wc ∈ wcs, loc.Printable wc) :
    min (loc.columns wcs) width = loc.columns (fit loc.wcwidth width 0 wcs) ↔
      loc.columns wcs ≤ width ∨ ∃ p, p <+: wcs ∧ loc.columns p = width := by
  have hbegins := fit_isPrefix loc.wcwidth width 0 wcs
  have hkept {p : List Wchar} (hp : p <+: wcs) :
      p <+: fit loc.wcwidth width 0 wcs ↔ loc.columns p ≤ width :=
    prefix_fit_iff_columns hcols hwidth hprint hp
  have hfits := (hkept hbegins).mp (List.prefix_refl _)
  constructor
  · intro heq
    by_cases hle : loc.columns wcs ≤ width
    · exact Or.inl hle
    · refine Or.inr ⟨fit loc.wcwidth width 0 wcs, hbegins, ?_⟩
      omega
  · rintro (hle | ⟨p, hp, hmargin⟩)
    · have hall := (hkept (List.prefix_refl wcs)).mpr hle
      rw [hbegins.eq_of_length_le hall.length_le]
      omega
    · have hpfit := (hkept hp).mpr (Int.le_of_eq hmargin)
      have hmargin' := columns_le_of_isPrefix hcols hpfit
      have htotal := columns_le_of_isPrefix hcols hp
      omega

/-! ## Drawn, and blanked -/

/-- The columns from the cursor to the margin. -/
def Fep.room (fep : Fep loc) : Int := fep.winsize.wsCol.toNat - fep.cursor.col

/-- The text at the cursor in the locale's encoding. -/
def CursorText.converted (c : CursorText loc) : List UInt8 := (loc.strIconv c.text).get c.converts

/-- The text that is shown is blanked by `n` spaces, from the cursor on. -/
def WritesSpaces (fep : Fep loc) (n : Nat) : Prop :=
  ∃ fep', blankCursorText fep = .ok fep' ∧ fep'.output = fep.output ++
    [.putp .saveCursor, .write (List.replicate n 0x20), .putp .restoreCursor]

/-- The characters of a text truncated to a width, none if it cannot be truncated. -/
def truncatedChars (loc : Locale) (str : List UInt8) (width : Int) : List Wchar :=
  (strtrunc loc str width).elim [] loc.chars

/-- As many spaces are written as the text, truncated to a width, has columns. -/
def Blanks (c : CursorText loc) (width : Int) (fep : Fep loc) : Prop :=
  ∃ n, WritesSpaces fep n ∧ n = loc.columns (truncatedChars loc c.converted width)

/-- The spaces are the columns of the text as far as the margin; the count must not be negative. -/
theorem writesSpaces_iff {fep : Fep loc} {c : CursorText loc} (hc : fep.cursorText = some c)
    (n : Nat) : WritesSpaces fep n ↔ min (strwidth loc c.converted) fep.room = n := by
  have hblank : blankCursorText fep =
      if min (strwidth loc c.converted) fep.room < 0 then .error .allocFailed
      else .ok (outputRestoreCursor { writeTty (outputSaveCursor fep)
        (List.replicate (min (strwidth loc c.converted) fep.room).toNat 0x20) with
          cursorText := none }) := by
    unfold blankCursorText
    rw [hc]
    rfl
  unfold WritesSpaces
  rw [hblank]
  by_cases hneg : min (strwidth loc c.converted) fep.room < 0
  · rw [if_pos hneg]
    refine iff_of_false ?_ (by omega)
    rintro ⟨fep', hok, -⟩
    exact absurd hok (by simp)
  · rw [if_neg hneg]
    constructor
    · rintro ⟨fep', hok, hspaces⟩
      rw [← Except.ok.inj hok] at hspaces
      simp [outputRestoreCursor, writeTty, outputSaveCursor, putp, List.replicate_inj] at hspaces
      omega
    · intro hn
      refine ⟨_, rfl, ?_⟩
      rw [hn, Int.toNat_natCast]
      simp [outputRestoreCursor, writeTty, outputSaveCursor, putp]

/-- The state when the text that was drawn is blanked: it is still there, and so are the cursor's column
and the width of the window. -/
structure StillShown (fep drawn shown : Fep loc) : Prop where
  cursorText : shown.cursorText = drawn.cursorText
  col : shown.cursor.col = fep.cursor.col
  wsCol : shown.winsize.wsCol = fep.winsize.wsCol

theorem StillShown.room {fep drawn shown : Fep loc} (h : StillShown fep drawn shown) :
    shown.room = fep.room := by
  rw [Fep.room, Fep.room, h.col, h.wsCol]

theorem drawCursorText_cursorText {fep drawn : Fep loc} {c : CursorText loc} {attr : FepAttribute}
    (h : drawCursorText fep c.text attr = .ok drawn) : drawn.cursorText = some c := by
  obtain ⟨drawn', hok, -, -, -, htext⟩ := drawCursorText_of_converts fep c attr
  rwa [Except.ok.inj (h.symm.trans hok)]

/-- The columns of a text as far as the margin are those of its truncation: none of a text that cannot be
truncated, otherwise nothing is left out or the last character drawn ends at the margin. -/
def DrawsToMargin (loc : Locale) (str : List UInt8) (room : Int) : Prop :=
  if loc.Valid str then
    loc.columns (loc.chars str) ≤ room ∨ ∃ p, p <+: loc.chars str ∧ loc.columns p = room
  else loc.columns (loc.chars str) = 0 ∨ room = 0

theorem truncatedChars_of_valid (hloc : loc.Encoding encode) {str : List UInt8} (h : loc.Valid str)
    (width : Int) : truncatedChars loc str width = fit loc.wcwidth width 0 (loc.chars str) := by
  obtain ⟨trunc, htrunc, -, hkept⟩ := strtrunc_eq hloc h width
  rw [truncatedChars, htrunc]
  exact hkept

theorem truncatedChars_of_not_valid {str : List UInt8} (h : ¬ loc.Valid str) (width : Int) :
    truncatedChars loc str width = [] := by
  rw [truncatedChars, strtrunc_of_not_valid h]
  rfl

theorem columns_nonneg (hcols : loc.Columns) (wcs : List Wchar) : 0 ≤ loc.columns wcs :=
  weight_nonneg loc.charColumns fun wc _ => charColumns_nonneg hcols wc

/-- The two widths of a text whose characters are printable. -/
theorem min_columns_eq_truncated_iff (hloc : loc.Encoding encode) (hcols : loc.Columns)
    {str : List UInt8} {room : Int} (hroom : 0 ≤ room)
    (hprint : ∀ wc ∈ loc.chars str, loc.Printable wc) :
    min (loc.columns (loc.chars str)) room = loc.columns (truncatedChars loc str room) ↔
      DrawsToMargin loc str room := by
  unfold DrawsToMargin
  split
  · next hvalid =>
    rw [truncatedChars_of_valid hloc hvalid]
    exact min_columns_eq_iff hcols hroom hprint
  · next hvalid =>
    have hnonneg := columns_nonneg hcols (loc.chars str)
    rw [truncatedChars_of_not_valid hvalid, show loc.columns [] = 0 from rfl]
    omega

/-- **A text is blanked as far as it was drawn** if and only if all of it is printable, the cursor is not
behind the margin, and no character is left out or the last one drawn ends at the margin. -/
theorem blanksDrawn_iff (hloc : loc.Encoding encode) (hcols : loc.Columns) {c : CursorText loc}
    {fep drawn shown : Fep loc} {attr : FepAttribute}
    (hdraw : drawCursorText fep c.text attr = .ok drawn) (hshown : StillShown fep drawn shown) :
    Blanks c fep.room shown ↔
      (∀ wc ∈ loc.chars c.converted, loc.Printable wc) ∧ 0 ≤ fep.room ∧
        DrawsToMargin loc c.converted fep.room := by
  have hc : shown.cursorText = some c := hshown.cursorText.trans (drawCursorText_cursorText hdraw)
  constructor
  · rintro ⟨n, hspaces, hn⟩
    rw [writesSpaces_iff hc, hshown.room] at hspaces
    have hprint : ∀ wc ∈ loc.chars c.converted, loc.Printable wc := by
      by_contra hnot
      rw [strwidth_of_not_printable hnot] at hspaces
      omega
    have hroom : 0 ≤ fep.room := by omega
    refine ⟨hprint, hroom, (min_columns_eq_truncated_iff hloc hcols hroom hprint).mp ?_⟩
    rw [← strwidth_of_printable hprint, hspaces, hn]
  · rintro ⟨hprint, hroom, hmargin⟩
    have hmin := (min_columns_eq_truncated_iff hloc hcols hroom hprint).mpr hmargin
    have hnonneg := columns_nonneg hcols (loc.chars c.converted)
    have hcount : ((min (loc.columns (loc.chars c.converted)) fep.room).toNat : Int) =
        min (loc.columns (loc.chars c.converted)) fep.room := Int.toNat_of_nonneg (by omega)
    refine ⟨_, ?_, hcount.trans hmin⟩
    rw [writesSpaces_iff hc, strwidth_of_printable hprint, hshown.room, hcount]

/-- A terminal of 80 columns with the cursor in the first one. -/
def firstColumn (loc : Locale) : Fep loc := { Fep.new loc with winsize := ⟨24, 80⟩ }

/-- Three Hiragana letters, six columns in all. -/
def hiraganaCursorText : CursorText .utf8 := ⟨hiragana, List.cons_ne_nil _ _, rfl⟩

/-- The text BEL. -/
def bellCursorText : CursorText .c := ⟨[0x07], List.cons_ne_nil _ _, rfl⟩

theorem exists_stillShown (fep : Fep loc) (c : CursorText loc) (attr : FepAttribute) :
    ∃ drawn, drawCursorText fep c.text attr = .ok drawn ∧ StillShown fep drawn drawn := by
  obtain ⟨drawn, hok, -⟩ := drawCursorText_of_converts fep c attr
  have hsent := drawCursorText_sent c.ne_nil hok
  exact ⟨drawn, hok, rfl, congrArg FepPoint.col hsent.cursor, congrArg Winsize.wsCol hsent.winsize⟩

theorem blanksDrawn_hiragana :
    ∃ drawn, drawCursorText (firstColumn .utf8) hiraganaCursorText.text ⟨fepAttrTypeNone, 0, 0, 0⟩ =
        .ok drawn ∧ Blanks hiraganaCursorText (firstColumn .utf8).room drawn := by
  obtain ⟨drawn, hok, hshown⟩ :=
    exists_stillShown (firstColumn .utf8) hiraganaCursorText ⟨fepAttrTypeNone, 0, 0, 0⟩
  refine ⟨drawn, hok, (blanksDrawn_iff encoding_utf8 columns_utf8 hok hshown).mpr ⟨?_, by decide, ?_⟩⟩
  · exact printable_hiragana
  · rw [DrawsToMargin, if_pos (show Locale.utf8.Valid hiraganaCursorText.converted from valid_hiragana)]
    exact Or.inl (by decide +kernel)

/-- A BEL that is drawn cannot be blanked: the width of the text is -1. -/
theorem not_blanksDrawn_bell :
    ∃ drawn, drawCursorText (firstColumn .c) bellCursorText.text ⟨fepAttrTypeNone, 0, 0, 0⟩ = .ok drawn ∧
      StillShown (firstColumn .c) drawn drawn ∧ ¬ Blanks bellCursorText (firstColumn .c).room drawn := by
  obtain ⟨drawn, hok, hshown⟩ :=
    exists_stillShown (firstColumn .c) bellCursorText ⟨fepAttrTypeNone, 0, 0, 0⟩
  refine ⟨drawn, hok, hshown, ?_⟩
  rintro ⟨n, hspaces, -⟩
  rw [writesSpaces_iff (drawCursorText_cursorText hok), hshown.room] at hspaces
  have hbell : ¬ ∀ wc ∈ Locale.c.chars bellCursorText.converted, Locale.c.Printable wc := by
    intro hprint
    exact absurd (hprint 0x07 (by decide)) (by decide)
  rw [strwidth_of_not_printable hbell] at hspaces
  omega

end LibFep
