import LibFep.Text.Utf8

/-!
# LibFep — truncation to a number of columns

`_fep_strtrunc` of `libfep/string.c` adds up what `wcwidth` returns, also the -1 of a character that is
not printable. Each of these makes room for one column too many.

* **`weight_wcwidth`** — the running total, against the columns of the printable characters.
* **`fit_columns_iff`** — when the characters kept fit the width.
* **`strtrunc_truncates_iff`** — what this says of `_fep_strtrunc`.
-/

namespace LibFep

open Lib

variable {loc : Locale} {encode : Wchar → List UInt8}

/-! ## Columns -/

def Locale.Printable (loc : Locale) (wc : Wchar) : Prop := loc.wcwidth wc ≠ -1

instance (loc : Locale) : DecidablePred loc.Printable := fun wc =>
  inferInstanceAs (Decidable (loc.wcwidth wc ≠ -1))

/-- The columns of a character, none if it is not printable. -/
def Locale.charColumns (loc : Locale) (wc : Wchar) : Int :=
  if loc.Printable wc then loc.wcwidth wc else 0

/-- The sum of the widths of the printable characters. -/
def Locale.columns (loc : Locale) (wcs : List Wchar) : Int := weight loc.charColumns wcs

/-- The number of characters that are not printable. -/
def Locale.unprintable (loc : Locale) (wcs : List Wchar) : Nat :=
  wcs.countP fun wc => ¬ loc.Printable wc

theorem charColumns_nonneg (h : loc.Columns) (wc : Wchar) : 0 ≤ loc.charColumns wc := by
  unfold Locale.charColumns
  split
  · next hprint =>
    have hw := h wc
    unfold Locale.Printable at hprint
    omega
  · exact Int.le_refl 0

/-- The total of `wcwidth`: every character that is not printable takes a column back. -/
theorem weight_wcwidth (wcs : List Wchar) :
    weight loc.wcwidth wcs = loc.columns wcs - loc.unprintable wcs := by
  induction wcs with
  | nil => rfl
  | cons wc wcs ih =>
    unfold Locale.columns Locale.unprintable at ih ⊢
    rw [weight_cons, weight_cons, ih, List.countP_cons, Locale.charColumns]
    by_cases hprint : loc.Printable wc
    · rw [if_pos hprint, if_neg (by simpa using hprint)]
      omega
    · have hw : loc.wcwidth wc = -1 := not_not.mp hprint
      rw [if_neg hprint, if_pos (by simpa using hprint), hw]
      omega

theorem columns_le_of_isPrefix (h : loc.Columns) {p wcs : List Wchar} (hp : p <+: wcs) :
    loc.columns p ≤ loc.columns wcs :=
  weight_le_of_isPrefix loc.charColumns (fun wc _ => charColumns_nonneg h wc) hp

/-! ## What is kept -/

/-- At the character where the columns run out, too few characters that are not printable stand before it
to make room for it. -/
def RunsOutBefore (loc : Locale) (wcs : List Wchar) (width : Int) : Prop :=
  ∀ pre wc post, wcs = pre ++ wc :: post → loc.columns pre ≤ width →
    width < loc.columns pre + loc.charColumns wc →
      loc.unprintable pre + width < loc.columns pre + loc.charColumns wc

@[simp] theorem unprintable_append (wcs wcs' : List Wchar) :
    loc.unprintable (wcs ++ wcs') = loc.unprintable wcs + loc.unprintable wcs' :=
  List.countP_append

@[simp] theorem columns_concat (wcs : List Wchar) (wc : Wchar) :
    loc.columns (wcs ++ [wc]) = loc.columns wcs + loc.charColumns wc := by
  simp [Locale.columns]

theorem unprintable_singleton {wc : Wchar} (h : 0 < loc.charColumns wc) :
    loc.unprintable [wc] = 0 := by
  have hprint : loc.Printable wc := by
    by_contra hnot
    rw [Locale.charColumns, if_neg hnot] at h
    exact absurd h (by decide)
  simpa [Locale.unprintable] using hprint

/-- **The characters kept fit the width** if the columns run out in time. -/
theorem fit_columns_iff (hloc : loc.Columns) {width : Int} (hwidth : 0 ≤ width)
    (wcs : List Wchar) :
    loc.columns (fit loc.wcwidth width 0 wcs) ≤ width ↔ RunsOutBefore loc wcs width := by
  constructor
  · intro hfits pre wc post hsplit hpre hover
    by_contra hroom
    -- the character is kept although there is no column for it
    have hkept : pre ++ [wc] <+: fit loc.wcwidth width 0 wcs := by
      rw [prefix_fit_iff loc.wcwidth ⟨post, by simp [hsplit]⟩]
      intro q hq _
      rw [Int.zero_add, weight_wcwidth]
      rcases List.prefix_concat_iff.mp hq with rfl | hq
      · have hone : loc.unprintable [wc] = 0 := unprintable_singleton (by omega)
        rw [columns_concat, unprintable_append, hone]
        omega
      · have hle := columns_le_of_isPrefix hloc hq
        omega
    have hle := columns_le_of_isPrefix hloc hkept
    rw [columns_concat] at hle
    omega
  · intro hrun
    by_contra hover
    obtain ⟨pre, wc, post, hsplit, hpre, hcross⟩ :=
      exists_crossing loc.charColumns hwidth (Int.not_le.mp hover)
    obtain ⟨rest, hrest⟩ := fit_isPrefix loc.wcwidth width 0 wcs
    have hroom := hrun pre wc (post ++ rest) (by rw [← hrest, hsplit]; simp) hpre hcross
    -- every beginning of what is kept has passed the test, this one among them
    have hkept : pre ++ [wc] <+: fit loc.wcwidth width 0 wcs := ⟨post, by simp [hsplit]⟩
    have hpassed := (prefix_fit_iff loc.wcwidth (hkept.trans ⟨rest, hrest⟩)).mp hkept
      (pre ++ [wc]) (List.prefix_refl _) (by simp)
    have hpre' : loc.columns pre ≤ width := hpre
    have hcross' : width < loc.columns pre + loc.charColumns wc := hcross
    have hone : loc.unprintable [wc] = 0 := unprintable_singleton (by omega)
    rw [Int.zero_add, weight_wcwidth, columns_concat, unprintable_append, hone] at hpassed
    omega

/-! ## `_fep_strtrunc` -/

/-- The characters kept are a beginning of the text that fits the width, and the longest one if every
character is printable. -/
structure Truncates (loc : Locale) (str : List UInt8) (width : Int) (trunc : List UInt8) : Prop where
  valid : loc.Valid trunc
  prefix_chars : loc.chars trunc <+: loc.chars str
  columns_le : loc.columns (loc.chars trunc) ≤ width
  longest : (∀ wc ∈ loc.chars str, loc.Printable wc) →
    ∀ p, p <+: loc.chars str → loc.columns p ≤ width → p <+: loc.chars trunc

theorem charColumns_of_printable {wc : Wchar} (h : loc.Printable wc) :
    loc.charColumns wc = loc.wcwidth wc := if_pos h

theorem columns_of_printable {wcs : List Wchar} (h : ∀ wc ∈ wcs, loc.Printable wc) :
    loc.columns wcs = weight loc.wcwidth wcs :=
  congrArg List.sum (List.map_congr_left fun wc hwc => charColumns_of_printable (h wc hwc))

theorem wcwidth_nonneg (hloc : loc.Columns) {wc : Wchar} (h : loc.Printable wc) :
    0 ≤ loc.wcwidth wc :=
  charColumns_of_printable h ▸ charColumns_nonneg hloc wc

/-- Where every character is printable, a beginning is kept just if it fits. -/
theorem prefix_fit_iff_columns (hloc : loc.Columns) {wcs p : List Wchar} {width : Int}
    (hwidth : 0 ≤ width) (hprint : ∀ wc ∈ wcs, loc.Printable wc) (hp : p <+: wcs) :
    p <+: fit loc.wcwidth width 0 wcs ↔ loc.columns p ≤ width := by
  have hnonneg : ∀ wc ∈ wcs, 0 ≤ loc.wcwidth wc := fun wc hwc =>
    wcwidth_nonneg hloc (hprint wc hwc)
  rw [columns_of_printable fun wc hwc => hprint wc (hp.subset hwc)]
  exact prefix_fit_iff_of_nonneg loc.wcwidth hwidth hnonneg hp

/-- **The text is truncated to the width** if and only if the columns run out in time. -/
theorem strtrunc_truncates_iff (hloc : loc.Encoding encode) (hcols : loc.Columns)
    {str : List UInt8} (hstr : loc.Valid str) {width : Int} (hwidth : 0 ≤ width) :
    (∃ trunc, strtrunc loc str width = some trunc ∧ Truncates loc str width trunc) ↔
      RunsOutBefore loc (loc.chars str) width := by
  obtain ⟨trunc, htrunc, hvalid, hkept⟩ := strtrunc_eq hloc hstr width
  rw [← fit_columns_iff hcols hwidth, ← hkept]
  constructor
  · rintro ⟨trunc', hok, hfits⟩
    obtain rfl := Option.some.inj (htrunc.symm.trans hok)
    exact hfits.columns_le
  · intro hle
    refine ⟨trunc, htrunc, hvalid, ?_, hle, ?_⟩
    · rw [hkept]
      exact fit_isPrefix loc.wcwidth width 0 (loc.chars str)
    · intro hprint p hp hfits
      rw [hkept]
      exact (prefix_fit_iff_columns hcols hwidth hprint hp).mpr hfits

/-- Where every character is printable, none makes room. -/
theorem runsOutBefore_of_printable {wcs : List Wchar} (h : ∀ wc ∈ wcs, loc.Printable wc) (width : Int) :
    RunsOutBefore loc wcs width := by
  intro pre wc post hsplit _ hover
  have hnone : loc.unprintable pre = 0 := by
    refine List.countP_eq_zero.mpr fun wc hwc => ?_
    simpa using h wc (by simp [hsplit, hwc])
  omega

/-- Three Hiragana letters of two columns each. -/
def hiragana : List UInt8 := [0xE3, 0x81, 0x82, 0xE3, 0x81, 0x84, 0xE3, 0x81, 0x86]

theorem mbsrtowcs_hiragana :
    Locale.utf8.mbsrtowcs hiragana = ([0x3042, 0x3044, 0x3046], true) := by decide +kernel

theorem valid_hiragana : Locale.utf8.Valid hiragana := by
  rw [Locale.Valid, mbsrtowcs_hiragana]

theorem printable_hiragana : ∀ wc ∈ Locale.utf8.chars hiragana, Locale.utf8.Printable wc := by
  rw [Locale.chars, mbsrtowcs_hiragana]
  simp only [List.forall_mem_cons]
  exact ⟨by decide, by decide, by decide, List.forall_mem_nil _⟩

/-- Two of them are kept where there are five columns. -/
theorem strtrunc_truncates_hiragana :
    ∃ trunc, strtrunc .utf8 hiragana 5 = some trunc ∧ Truncates .utf8 hiragana 5 trunc :=
  (strtrunc_truncates_iff encoding_utf8 columns_utf8 valid_hiragana (by decide)).mpr
    (runsOutBefore_of_printable printable_hiragana 5)

/-- BEL, and then `ab`. -/
def bellText : List UInt8 := [0x07, 0x61, 0x62]

/-- The bell makes room for a second letter where there is one column. -/
theorem not_strtrunc_truncates_bell :
    ¬ ∃ trunc, strtrunc .c bellText 1 = some trunc ∧ Truncates .c bellText 1 trunc := by
  rintro ⟨trunc, hok, hfits⟩
  have hall : strtrunc .c bellText 1 = some bellText := by decide
  obtain rfl := Option.some.inj (hall.symm.trans hok)
  exact absurd hfits.columns_le (by decide)

end LibFep
