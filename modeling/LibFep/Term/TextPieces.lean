import LibFep.Term.RenderedText
import LibFep.Term.Sent
import LibFep.Text.Utf8

/-!
# LibFep — the pieces a text is written in

`_fep_output_string_with_attribute` of `fep/output.c` writes a text in up to three pieces: before its
attribute's range, in it, and behind it. The first one is written only with an attribute, and an index
from 2 ^ 31 on is out of range.

* **`textOf_outputTruncated`** — the bytes written are the encodings of three ranges of characters.
* **`writtenChars_eq_iff`** — when these are all the characters.
* **`writesTruncated_iff`** — what this says of a call.
-/

namespace LibFep

open Lib

variable {loc : Locale} {encode : Wchar → List UInt8}

/-- What was given to `write`. -/
def textOf (output : List TtyOutput) : List UInt8 :=
  output.flatMap fun
    | .write bytes => bytes
    | .putp _ | .sgr _ => []

@[simp] theorem textOf_append (output output' : List TtyOutput) :
    textOf (output ++ output') = textOf output ++ textOf output' := List.flatMap_append

@[simp] theorem textOf_write (bytes : List UInt8) : textOf [.write bytes] = bytes :=
  List.append_nil bytes

@[simp] theorem textOf_sgr (str : List UInt8) : textOf [.sgr str] = [] := rfl

theorem textOf_attributes {pieces : List TtyOutput} (h : ∀ o ∈ pieces, TtyOutput.IsAttribute o) :
    textOf pieces = [] := by
  refine List.flatMap_eq_nil_iff.mpr fun o ho => ?_
  cases o with
  | putp capability => rfl
  | sgr str => rfl
  | write bytes => exact (h _ ho).elim

/-! ## One piece -/

/-- The characters of a range, none if its end is negative as an `int`. -/
def rangeChars (wcs : List Wchar) (first last : Nat) : List Wchar :=
  if last < 2 ^ 31 then (wcs.take last).drop first else []

theorem rangeChars_sublist (wcs : List Wchar) (first last : Nat) :
    (rangeChars wcs first last).Sublist ((wcs.take last).drop first) := by
  unfold rangeChars
  split
  · exact List.Sublist.refl _
  · exact List.nil_sublist _

theorem length_rangeChars {wcs : List Wchar} {first last : Nat} (h : last ≤ wcs.length) :
    (rangeChars wcs first last).length = if last < 2 ^ 31 then last - first else 0 := by
  unfold rangeChars
  split
  · rw [List.length_drop, List.length_take, Nat.min_eq_left h]
  · rfl

theorem getD_substring (hloc : loc.Encoding encode) {trunc : List UInt8} (hvalid : loc.Valid trunc)
    {first last : BitVec 32} (hle : first ≤ last) (hlast : last.toNat ≤ (loc.chars trunc).length) :
    (substring loc trunc first.toInt last.toInt).getD [] =
      (rangeChars (loc.chars trunc) first.toNat last.toNat).flatMap encode := by
  have hle' : first.toNat ≤ last.toNat := hle
  unfold rangeChars
  by_cases hsmall : last.toNat < 2 ^ 31
  · have hfirst : first.toInt = first.toNat := BitVec.toInt_eq_toNat_of_lt (by omega)
    have hlast' : last.toInt = last.toNat := BitVec.toInt_eq_toNat_of_lt (by omega)
    rw [if_pos hsmall, hfirst, hlast', substring_eq hloc hvalid.mbsrtowcs_eq hle' hlast]
    rfl
  · have hneg : last.toInt < 0 := BitVec.toInt_neg_iff.mpr (by omega)
    rw [if_neg hsmall]
    simp only [substring, hvalid.mbsrtowcs_eq]
    rw [if_pos (by omega)]
    rfl

theorem textOf_writeSubstring (fep : Fep loc) (trunc : List UInt8) (first last : BitVec 32) :
    textOf (writeSubstring fep trunc first last).output =
      textOf fep.output ++ (substring loc trunc first.toInt last.toInt).getD [] := by
  unfold writeSubstring
  cases substring loc trunc first.toInt last.toInt with
  | none => exact (List.append_nil _).symm
  | some p =>
    show textOf (fep.output ++ [.write p]) = _
    rw [textOf_append, textOf_write]
    rfl

theorem textOf_outputSetAttributes (fep : Fep loc) (attr : FepSgrAttr) :
    textOf (outputSetAttributes fep attr).output = textOf fep.output := by
  rw [outputSetAttributes, textOf_append, textOf_sgr, List.append_nil]

theorem rangeChars_self (wcs : List Wchar) (i : Nat) : rangeChars wcs i i = [] := by
  unfold rangeChars
  split
  · exact List.drop_of_length_le (List.length_take_le i wcs)
  · rfl

/-- A range that is written if it is not empty. -/
theorem textOf_writeRange (hloc : loc.Encoding encode) {trunc : List UInt8}
    (hvalid : loc.Valid trunc) (fep : Fep loc) {first last : BitVec 32} (hle : first ≤ last)
    (hlast : last.toNat ≤ (loc.chars trunc).length) :
    textOf (if first < last then writeSubstring fep trunc first last else fep).output =
      textOf fep.output ++
        (rangeChars (loc.chars trunc) first.toNat last.toNat).flatMap encode := by
  split
  · rw [textOf_writeSubstring, getD_substring hloc hvalid hle hlast]
  · next hnot =>
    have hle' : first.toNat ≤ last.toNat := hle
    have hnot' : ¬ first.toNat < last.toNat := hnot
    rw [show first.toNat = last.toNat by omega, rangeChars_self, List.flatMap_nil, List.append_nil]

/-! ## The pieces -/

/-- The characters that are written of a text. -/
def writtenChars (wcs : List Wchar) (attr : FepAttribute) : List Wchar :=
  let length := wcs.length % 2 ^ 32
  let first := min length (min attr.startIndex.toNat attr.endIndex.toNat)
  let last := min length (max attr.startIndex.toNat attr.endIndex.toNat)
  (if attr.type ≠ fepAttrTypeNone then rangeChars wcs 0 first else []) ++
    rangeChars wcs first last ++ rangeChars wcs last length

theorem ofInt_charcount {trunc : List UInt8} (hvalid : loc.Valid trunc) :
    BitVec.ofInt 32 (charcount loc trunc) = BitVec.ofNat 32 (loc.chars trunc).length := by
  simp only [charcount, hvalid.mbsrtowcs_eq]
  exact BitVec.ofInt_toInt

/-- **The bytes written** are those of three ranges of characters. -/
theorem textOf_outputTruncated (hloc : loc.Encoding encode) {trunc : List UInt8}
    (hvalid : loc.Valid trunc) (fep : Fep loc) (attr : FepAttribute) :
    textOf (outputTruncated fep trunc attr).output =
      textOf fep.output ++ (writtenChars (loc.chars trunc) attr).flatMap encode := by
  unfold outputTruncated
  rw [ofInt_charcount hvalid]
  extract_lets length index1 index2 startIndex endIndex decorated fep1 marked written fep2
  obtain ⟨hfirst, hlast⟩ : startIndex.toNat =
      min length.toNat (min attr.startIndex.toNat attr.endIndex.toNat) ∧
      endIndex.toNat = min length.toNat (max attr.startIndex.toNat attr.endIndex.toNat) :=
    toNat_cut length attr.startIndex attr.endIndex
  have hlength : length.toNat = (loc.chars trunc).length % 2 ^ 32 := BitVec.toNat_ofNat _ _
  have hmod : length.toNat ≤ (loc.chars trunc).length := hlength ▸ Nat.mod_le _ _
  have hle : startIndex ≤ endIndex := BitVec.le_def.mpr (by omega)
  have hle' : endIndex ≤ length := BitVec.le_def.mpr (by omega)
  -- before the range
  have hbefore : textOf fep1.output = textOf fep.output ++
      (if decorated then rangeChars (loc.chars trunc) 0 startIndex.toNat else []).flatMap encode := by
    unfold fep1
    by_cases hdec : decorated
    · simp only [hdec, and_true, if_true]
      exact textOf_writeRange hloc hvalid fep (BitVec.le_def.mpr (Nat.zero_le _)) (by omega)
    · simp [hdec]
  -- in the range
  have hrange : textOf fep2.output = textOf fep1.output ++
      (rangeChars (loc.chars trunc) startIndex.toNat endIndex.toNat).flatMap encode := by
    rw [← textOf_writeRange hloc hvalid fep1 hle (by omega)]
    unfold fep2
    split
    · unfold written marked
      by_cases hdec : decorated
      · simp only [if_pos hdec]
        rw [textOf_outputSetAttributes, textOf_writeSubstring, textOf_outputSetAttributes,
          ← textOf_writeSubstring]
      · simp only [if_neg hdec]
    · rfl
  -- behind the range
  rw [textOf_writeRange hloc hvalid fep2 hle' hmod, hrange, hbefore]
  simp only [writtenChars, ← hlength, ← hfirst, ← hlast, List.flatMap_append, List.append_assoc]
  rfl

theorem take_append_range (wcs : List Wchar) {i j : Nat} (h : i ≤ j) :
    wcs.take i ++ (wcs.take j).drop i = wcs.take j := by
  have htake : (wcs.take j).take i = wcs.take i := by
    rw [List.take_take, Nat.min_eq_left h]
  rw [← htake, List.take_append_drop]

theorem writtenChars_sublist (wcs : List Wchar) (attr : FepAttribute) :
    (writtenChars wcs attr).Sublist wcs := by
  unfold writtenChars
  extract_lets length first last
  have hsplit : (wcs.take first).drop 0 ++ (wcs.take last).drop first ++
      (wcs.take length).drop last = wcs.take length := by
    rw [List.drop_zero, take_append_range wcs (show first ≤ last by omega),
      take_append_range wcs (show last ≤ length by omega)]
  have hbefore : (if attr.type ≠ fepAttrTypeNone then rangeChars wcs 0 first else []).Sublist
      ((wcs.take first).drop 0) := by
    split
    · exact rangeChars_sublist wcs 0 first
    · exact List.nil_sublist _
  refine List.Sublist.trans ?_ (List.take_sublist length wcs)
  rw [← hsplit]
  exact (hbefore.append (rangeChars_sublist wcs first last)).append
    (rangeChars_sublist wcs last length)

/-- **All characters are written** if their number is an `int`, and none of them stands before the range
of a text without an attribute. -/
theorem writtenChars_eq_iff (wcs : List Wchar) (attr : FepAttribute) :
    writtenChars wcs attr = wcs ↔ wcs.length < 2 ^ 31 ∧
      (attr.type ≠ fepAttrTypeNone ∨ min attr.startIndex.toNat attr.endIndex.toNat = 0 ∨ wcs = []) := by
  have hsub := writtenChars_sublist wcs attr
  have hlen : writtenChars wcs attr = wcs ↔ (writtenChars wcs attr).length = wcs.length :=
    ⟨congrArg List.length, hsub.eq_of_length⟩
  have hmod : wcs.length % 2 ^ 32 ≤ wcs.length := Nat.mod_le _ _
  rw [hlen, ← List.length_eq_zero_iff]
  unfold writtenChars
  extract_lets length first last
  rw [List.length_append, List.length_append, apply_ite List.length, List.length_nil,
    length_rangeChars (by omega), length_rangeChars (by omega), length_rangeChars hmod]
  by_cases hsmall : wcs.length < 2 ^ 31
  · -- all indices are in range
    have hall : length = wcs.length := Nat.mod_eq_of_lt (by omega)
    rw [if_pos (show first < 2 ^ 31 by omega), if_pos (show last < 2 ^ 31 by omega),
      if_pos (show length < 2 ^ 31 by omega)]
    split
    · next hdec =>
      refine iff_of_true (by omega) ⟨hsmall, Or.inl hdec⟩
    · next hdec =>
      constructor
      · intro h
        exact ⟨hsmall, Or.inr (by omega)⟩
      · rintro ⟨-, hdec' | hstart⟩
        · exact absurd hdec' hdec
        · omega
  · refine iff_of_false ?_ (fun h => hsmall h.1)
    repeat' split
    all_goals omega

/-! ## A call -/

/-- A part of a list of characters whose encodings are those of the whole list is the whole list. -/
theorem eq_of_flatMap_encode (hloc : loc.Encoding encode) {wcs wcs' : List Wchar}
    (hsub : wcs'.Sublist wcs) (heq : wcs'.flatMap encode = wcs.flatMap encode) : wcs' = wcs := by
  have hlen : (wcs'.flatMap encode).length + (wcs.length - wcs'.length) ≤
      (wcs.flatMap encode).length := by
    clear heq
    induction hsub with
    | slnil => exact Nat.le_refl 0
    | @cons l l' wc hsub ih =>
      have hpos := List.length_pos_iff.mpr (hloc.encode_ne_nil wc)
      rw [List.flatMap_cons, List.length_append, List.length_cons]
      omega
    | @cons_cons l l' wc hsub ih =>
      simp only [List.flatMap_cons, List.length_append, List.length_cons]
      omega
  rw [heq] at hlen
  exact hsub.eq_of_length_le (by omega)

/-- The text bytes that a call writes are those of the truncated text. -/
def WritesTruncated (fep : Fep loc) (str local' : List UInt8) (width : Int) (attr : FepAttribute) :
    Prop :=
  ∃ fep' trunc pieces, outputStringWithAttribute fep str width attr = .ok fep' ∧
    fep'.output = fep.output ++ pieces ∧ strtrunc loc local' width = some trunc ∧
      textOf pieces = trunc

theorem textOf_applyAttr (fep : Fep loc) (attr : FepSgrAttr) :
    textOf (applyAttr fep attr).output = textOf fep.output := by
  obtain ⟨pieces, hattr, houtput⟩ := applyAttr_output fep attr
  rw [houtput, textOf_append, textOf_attributes hattr, List.append_nil]

/-- A text is written as it was truncated, but for the pieces that are left out. -/
theorem outputStringWithAttribute_text (hloc : loc.Encoding encode) (fep : Fep loc)
    {str local' trunc : List UInt8} (hne : str ≠ []) (hlocal : loc.strIconv str = some local')
    {width : Int} (htrunc : strtrunc loc local' width = some trunc) (hvalid : loc.Valid trunc)
    (attr : FepAttribute) :
    ∃ fep' pieces, outputStringWithAttribute fep str width attr = .ok fep' ∧
      fep'.output = fep.output ++ pieces ∧
        textOf pieces = (writtenChars (loc.chars trunc) attr).flatMap encode := by
  have hok : outputStringWithAttribute fep str width attr =
      .ok (outputTruncated (applyAttr { fep with ptybuf := [] } fep.attrTty) trunc attr) := by
    rw [outputStringWithAttribute, if_neg hne, hlocal]
    simp only [htrunc]
  obtain ⟨pieces, -, houtput⟩ := (TextSent.outputStringWithAttribute hok).output
  refine ⟨_, pieces, hok, houtput, ?_⟩
  have htext := textOf_outputTruncated hloc hvalid
    (applyAttr { fep with ptybuf := [] } fep.attrTty) attr
  rw [houtput, textOf_append, textOf_applyAttr] at htext
  exact List.append_cancel_left htext

/-- **The text bytes are those of the truncated text** if and only if its characters can be counted in
an `int`, and it has an attribute, a range from the first character on, or no character. -/
theorem writesTruncated_iff (hloc : loc.Encoding encode) (fep : Fep loc) {str local' : List UInt8}
    (hlocal : loc.strIconv str = some local') (hvalid : loc.Valid local') (width : Int)
    (attr : FepAttribute) :
    WritesTruncated fep str local' width attr ↔
      (fit loc.wcwidth width 0 (loc.chars local')).length < 2 ^ 31 ∧
        (attr.type ≠ fepAttrTypeNone ∨ min attr.startIndex.toNat attr.endIndex.toNat = 0 ∨
          fit loc.wcwidth width 0 (loc.chars local') = []) := by
  obtain ⟨trunc, htrunc, hvalid', hkept⟩ := strtrunc_eq hloc hvalid width
  rw [← hkept]
  by_cases hne : str = []
  · subst hne
    obtain rfl := Option.some.inj (hloc.strIconv_nil.symm.trans hlocal)
    have hnil : loc.chars trunc = [] := by
      rw [hkept, hloc.chars_nil]
      rfl
    have htrunc' : [] = trunc := by rw [← hloc.flatMap_chars hvalid', hnil, List.flatMap_nil]
    refine iff_of_true ?_ ⟨by rw [hnil]; exact Nat.two_pow_pos 31, Or.inr (Or.inr hnil)⟩
    exact ⟨fep, trunc, [], rfl, (List.append_nil _).symm, htrunc, htrunc'⟩
  rw [← writtenChars_eq_iff]
  obtain ⟨fep', pieces, hok, houtput, htext⟩ :=
    outputStringWithAttribute_text hloc fep hne hlocal htrunc hvalid' attr
  constructor
  · rintro ⟨fep'', trunc', pieces', hok', houtput', htrunc', hpieces⟩
    obtain rfl := Except.ok.inj (hok.symm.trans hok')
    obtain rfl := List.append_cancel_left (houtput.symm.trans houtput')
    obtain rfl := Option.some.inj (htrunc.symm.trans htrunc')
    apply eq_of_flatMap_encode hloc (writtenChars_sublist _ attr)
    rw [← htext, hloc.flatMap_chars hvalid', hpieces]
  · intro hall
    refine ⟨fep', trunc, pieces, hok, houtput, htrunc, ?_⟩
    rw [htext, hall, hloc.flatMap_chars hvalid']

/-- The letter `a` and a Hiragana letter of two columns, which has an attribute, in three columns. -/
theorem writesTruncated_bold :
    WritesTruncated (Fep.new .utf8) [0x61, 0xE3, 0x81, 0x82] [0x61, 0xE3, 0x81, 0x82] 3
      ⟨fepAttrTypeBold, 1, 1, 2⟩ :=
  (writesTruncated_iff encoding_utf8 (Fep.new .utf8) rfl (by decide) 3 _).mpr
    ⟨by decide, Or.inl (by decide)⟩

/-- Without an attribute the character before the range is dropped. -/
theorem not_writesTruncated_none :
    ¬ WritesTruncated (Fep.new .c) [0x61, 0x62] [0x61, 0x62] 80 ⟨fepAttrTypeNone, 0, 1, 2⟩ := by
  rintro ⟨fep', trunc, pieces, hok, houtput, htrunc, rfl⟩
  have hwritten : (outputStringWithAttribute (Fep.new .c) [0x61, 0x62] 80
      ⟨fepAttrTypeNone, 0, 1, 2⟩).map (textOf ·.output) = .ok [0x62] := by decide +kernel
  have htext : strtrunc .c [0x61, 0x62] 80 = some [0x61, 0x62] := by decide
  rw [hok] at hwritten
  have hpieces : textOf fep'.output = [0x62] := Except.ok.inj hwritten
  rw [houtput] at hpieces
  replace hpieces : textOf pieces = [0x62] := hpieces
  rw [htext, hpieces] at htrunc
  exact absurd htrunc (by decide)

end LibFep
