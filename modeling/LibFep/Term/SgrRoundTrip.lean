import LibFep.Term.Accumulate
import LibFep.Term.Rendition

/-!
# LibFep — attributes through SGR parameters and back

`_fep_sgr_params_to_attr` after `_fep_sgr_params_from_attr` of `fep/sgr.c`. The encoder tests the bits of
`FepSgrAttrType`, the decoder sets the values of `FepAttrType`.

* **`decode_values`** — what the numbers for an attribute are decoded to, step by step.
* **`sgrRoundTrip_iff`** — the attributes that come back, for any table of codes.
-/

namespace LibFep

/-! ## The table of codes -/

/-- The codes that set an attribute differ from all others that the decoder looks at. The codes are C
integers. -/
structure SeparateCodes (codes : SgrCodes) : Prop extends EnterCodes codes where
  not_exit : ∀ i j, enterBit i ≠ 0 → enterBit j = 0 → codes i ≠ codes j
  not_22_25 : ∀ i, enterBit i ≠ 0 → codes i ≠ 22 ∧ codes i ≠ 25
  lt : ∀ i, codes i < 2 ^ 31

/-- The bits that the decoder sets for a code. -/
def typeBits : FepSgrParamIndex → BitVec 32
  | .enterUnderline => fepAttrTypeUnderline
  | .enterStandout => fepAttrTypeStandout
  | .enterBold => fepAttrTypeBold
  | .enterBlink => fepAttrTypeBlink
  | .exitUnderline | .exitStandout | .origPair | .origFore | .origBack => 0

/-- The number is a code that clears an attribute or resets a colour. -/
def IsExitCode (codes : SgrCodes) (value : Int) : Prop := ∃ j, enterBit j = 0 ∧ codes j = value

variable {codes : SgrCodes}

theorem SeparateCodes.ne_of_ne (h : SeparateCodes codes) {i j : FepSgrParamIndex}
    (hi : enterBit i ≠ 0) (hij : j ≠ i) : codes i ≠ codes j := by
  intro heq
  by_cases hj : enterBit j = 0
  · exact h.not_exit i j hi hj heq
  · exact hij (h.distinct i j hi hj heq).symm

/-! ## One number -/

theorem sgrApplyParam_code (h : SeparateCodes codes) {i : FepSgrParamIndex} (hi : enterBit i ≠ 0)
    (r : FepSgrAttr) :
    sgrApplyParam codes r (codes i) = { r with attr := r.attr ||| typeBits i } := by
  have hzero : codes i ≠ 0 := Int.ne_of_gt (h.pos i hi)
  have hne : ∀ j, j ≠ i → codes i ≠ codes j := fun j hij => h.ne_of_ne hi hij
  unfold sgrApplyParam
  rw [if_neg hzero]
  cases i with
  | enterUnderline => rw [if_pos rfl]; rfl
  | enterStandout =>
    rw [if_neg (hne _ (by decide)), if_neg (hne _ (by decide)), if_pos rfl]
    rfl
  | enterBold =>
    rw [if_neg (hne _ (by decide)), if_neg (hne _ (by decide)), if_neg (hne _ (by decide)),
      if_neg (hne _ (by decide)), if_pos rfl]
    rfl
  | enterBlink =>
    rw [if_neg (hne _ (by decide)), if_neg (hne _ (by decide)), if_neg (hne _ (by decide)),
      if_neg (hne _ (by decide)), if_neg (hne _ (by decide)), if_pos rfl]
    rfl
  | exitUnderline | exitStandout | origPair | origFore | origBack => exact absurd rfl hi

theorem ne_code_of_colour (h : EnterCodes codes) {value : Int}
    (hvalue : IsForeground value ∨ IsBackground value) {i : FepSgrParamIndex} (hi : enterBit i ≠ 0) :
    value ≠ codes i := by
  rintro rfl
  exact hvalue.elim (h.not_foreground i hi) (h.not_background i hi)

theorem ne_of_colour {value : Int} (hvalue : IsForeground value ∨ IsBackground value) :
    value ≠ 0 ∧ value ≠ 22 ∧ value ≠ 25 := by
  unfold IsForeground IsBackground at hvalue
  omega

/-- A colour that no code of the table stands in for. -/
theorem sgrApplyParam_colour (h : EnterCodes codes) {value : Int}
    (hvalue : IsForeground value ∨ IsBackground value) (hexit : ¬ IsExitCode codes value)
    (r : FepSgrAttr) :
    sgrApplyParam codes r value =
      if IsForeground value then { r with foreground := value }
      else { r with background := value - 10 } := by
  obtain ⟨hzero, h22, h25⟩ := ne_of_colour hvalue
  have hne : ∀ i, value ≠ codes i := by
    intro i heq
    by_cases hi : enterBit i = 0
    · exact hexit ⟨i, hi, heq.symm⟩
    · exact ne_code_of_colour h hvalue hi heq
  unfold sgrApplyParam
  rw [if_neg hzero, if_neg (hne _), if_neg (hne _), if_neg (hne _), if_neg (hne _), if_neg (hne _),
    if_neg (hne _), if_neg (hne _), if_neg (hne _), if_neg (hne _), if_neg h22, if_neg h25]
  by_cases hfore : IsForeground value
  · rw [if_pos hfore]
    exact if_pos hfore
  · rw [if_neg hfore]
    exact (if_neg hfore).trans (if_pos (hvalue.resolve_left hfore))

/-- The colours are as they were, or reset. -/
structure ColoursKept (r r' : FepSgrAttr) : Prop where
  foreground : r'.foreground = r.foreground ∨ r'.foreground = 0
  background : r'.background = r.background ∨ r'.background = 0

/-- A colour that a code of the table stands in for sets none. -/
theorem sgrApplyParam_exit (h : EnterCodes codes) {value : Int}
    (hvalue : IsForeground value ∨ IsBackground value) (hexit : IsExitCode codes value)
    (r : FepSgrAttr) : ColoursKept r (sgrApplyParam codes r value) := by
  have hne {i : FepSgrParamIndex} (hi : enterBit i ≠ 0) := ne_code_of_colour h hvalue hi
  -- the tests for the codes of the table come before those for the colours
  unfold sgrApplyParam
  rw [if_neg (ne_of_colour hvalue).1, if_neg (hne (by decide))]
  by_cases h1 : value = codes .exitUnderline
  · rw [if_pos h1]
    exact ⟨Or.inl rfl, Or.inl rfl⟩
  rw [if_neg h1, if_neg (hne (by decide))]
  by_cases h2 : value = codes .exitStandout
  · rw [if_pos h2]
    exact ⟨Or.inl rfl, Or.inl rfl⟩
  rw [if_neg h2, if_neg (hne (by decide)), if_neg (hne (by decide))]
  by_cases h3 : value = codes .origPair
  · rw [if_pos h3]
    exact ⟨Or.inr rfl, Or.inr rfl⟩
  rw [if_neg h3]
  by_cases h4 : value = codes .origFore
  · rw [if_pos h4]
    exact ⟨Or.inr rfl, Or.inl rfl⟩
  rw [if_neg h4]
  by_cases h5 : value = codes .origBack
  · rw [if_pos h5]
    exact ⟨Or.inl rfl, Or.inr rfl⟩
  obtain ⟨j, hj, rfl⟩ := hexit
  cases j with
  | enterUnderline | enterStandout | enterBold | enterBlink => exact absurd hj (by decide)
  | exitUnderline => exact absurd rfl h1
  | exitStandout => exact absurd rfl h2
  | origPair => exact absurd rfl h3
  | origFore => exact absurd rfl h4
  | origBack => exact absurd rfl h5

/-! ## All numbers of an attribute -/

/-- The bits that are decoded for the bits of an attribute. -/
def decodedBits (attr : BitVec 32) : BitVec 32 :=
  let bits (i : FepSgrParamIndex) : BitVec 32 := if attr &&& enterBit i ≠ 0 then typeBits i else 0
  bits .enterUnderline ||| bits .enterStandout ||| bits .enterBold ||| bits .enterBlink

/-- The decoder on the numbers. -/
def decodeValues (codes : SgrCodes) (r : FepSgrAttr) (values : List Nat) : FepSgrAttr :=
  (values.map fun n : Nat => (n : Int)).foldl (sgrApplyParam codes) r

theorem decodeValues_append (r : FepSgrAttr) (values values' : List Nat) :
    decodeValues codes r (values ++ values') =
      decodeValues codes (decodeValues codes r values) values' := by
  simp [decodeValues]

theorem decodeValues_bitValues (h : SeparateCodes codes) {i : FepSgrParamIndex} (hi : enterBit i ≠ 0)
    (attr r : FepSgrAttr) :
    decodeValues codes r (bitValues codes attr i) =
      { r with attr := r.attr ||| if attr.attr &&& enterBit i ≠ 0 then typeBits i else 0 } := by
  have hpos := h.pos i hi
  unfold bitValues
  by_cases hset : attr.attr &&& enterBit i ≠ 0
  · have hcast : ((codes i).toNat : Int) = codes i := Int.toNat_of_nonneg (Int.le_of_lt hpos)
    rw [if_pos ⟨hset, Int.ne_of_gt hpos⟩, if_pos hset]
    show sgrApplyParam codes r ((codes i).toNat : Int) = _
    rw [hcast, sgrApplyParam_code h hi]
  · rw [if_neg fun hboth => hset hboth.1, if_neg hset]
    exact FepSgrAttr.ext BitVec.or_zero.symm rfl rfl

/-- The numbers of the four bits. -/
theorem decodeValues_bits (h : SeparateCodes codes) (attr : FepSgrAttr) :
    decodeValues codes fepEmptyAttr (bitValues codes attr .enterUnderline ++
        bitValues codes attr .enterStandout ++ bitValues codes attr .enterBold ++
        bitValues codes attr .enterBlink) =
      ⟨decodedBits attr.attr, 0, 0⟩ := by
  simp only [decodeValues_append]
  rw [decodeValues_bitValues h (by decide), decodeValues_bitValues h (by decide),
    decodeValues_bitValues h (by decide), decodeValues_bitValues h (by decide)]
  have hzero (bits : BitVec 32) : 0 ||| bits = bits := BitVec.zero_or
  refine FepSgrAttr.ext ?_ rfl rfl
  simp only [decodedBits, fepEmptyAttr, hzero]

/-- One colour, `shift` below its code. -/
theorem decodeValues_colour (colour shift : Int) (r : FepSgrAttr)
    (hnonneg : colour ≠ 0 → 0 ≤ colour + shift) :
    decodeValues codes r (if colour ≠ 0 then [(colour + shift).toNat] else []) =
      if colour = 0 then r else sgrApplyParam codes r (colour + shift) := by
  by_cases hcolour : colour = 0
  · rw [if_neg (not_not.mpr hcolour), if_pos hcolour]
    rfl
  · rw [if_pos hcolour, if_neg hcolour]
    show sgrApplyParam codes r ((colour + shift).toNat : Int) = _
    rw [Int.toNat_of_nonneg (hnonneg hcolour)]

/-- The colours that come back: none, or one that no code of the table stands in for. -/
def ColourKept (codes : SgrCodes) (colour shift : Int) : Prop :=
  colour = 0 ∨ ¬ IsExitCode codes (colour + shift)

theorem decodeValues_foreground (h : EnterCodes codes) {colour : Int}
    (hcolour : colour = 0 ∨ IsForeground colour) {r : FepSgrAttr} (hr : r.foreground = 0)
    (hback : r.background = 0) :
    let r' := decodeValues codes r (if colour ≠ 0 then [colour.toNat] else [])
    (ColourKept codes colour 0 → r' = { r with foreground := colour }) ∧
      (¬ ColourKept codes colour 0 → r'.foreground = 0 ∧ r'.background = 0) := by
  intro r'
  have hvalue : r' = if colour = 0 then r else sgrApplyParam codes r colour := by
    have := @decodeValues_colour codes colour 0 r (by unfold IsForeground at hcolour; omega)
    simpa only [Int.add_zero] using this
  rw [hvalue, ColourKept, Int.add_zero]
  rcases hcolour with rfl | hcolour
  · rw [if_pos rfl]
    exact ⟨fun _ => FepSgrAttr.ext rfl hr rfl, fun hnot => absurd (Or.inl rfl) hnot⟩
  · have hne : colour ≠ 0 := (ne_of_colour (Or.inl hcolour)).1
    rw [if_neg hne]
    constructor
    · intro hkept
      rw [sgrApplyParam_colour h (Or.inl hcolour) (hkept.resolve_left hne), if_pos hcolour]
    · intro hnot
      have hexit : IsExitCode codes colour := not_not.mp (not_or.mp hnot).2
      have hsame := sgrApplyParam_exit h (Or.inl hcolour) hexit r
      exact ⟨hsame.foreground.elim (·.trans hr) id, hsame.background.elim (·.trans hback) id⟩

theorem decodeValues_background (h : EnterCodes codes) {colour : Int}
    (hcolour : colour = 0 ∨ IsForeground colour) {r : FepSgrAttr} (hr : r.background = 0) :
    let r' := decodeValues codes r (if colour ≠ 0 then [(colour + 10).toNat] else [])
    (ColourKept codes colour 10 → r' = { r with background := colour }) ∧
      (¬ ColourKept codes colour 10 →
        (r'.foreground = r.foreground ∨ r'.foreground = 0) ∧ r'.background = 0) := by
  intro r'
  have hvalue : r' = if colour = 0 then r else sgrApplyParam codes r (colour + 10) :=
    decodeValues_colour colour 10 r (by unfold IsForeground at hcolour; omega)
  rw [hvalue, ColourKept]
  rcases hcolour with rfl | hcolour
  · rw [if_pos rfl]
    exact ⟨fun _ => FepSgrAttr.ext rfl rfl hr, fun hnot => absurd (Or.inl rfl) hnot⟩
  · have hne : colour ≠ 0 := (ne_of_colour (Or.inl hcolour)).1
    have hback : IsBackground (colour + 10) := by
      unfold IsForeground at hcolour
      unfold IsBackground
      omega
    have hfore : ¬ IsForeground (colour + 10) := by
      unfold IsForeground at hcolour ⊢
      omega
    rw [if_neg hne]
    constructor
    · intro hkept
      rw [sgrApplyParam_colour h (Or.inr hback) (hkept.resolve_left hne), if_neg hfore,
        Int.add_sub_cancel]
    · intro hnot
      have hexit : IsExitCode codes (colour + 10) := not_not.mp (not_or.mp hnot).2
      have hsame := sgrApplyParam_exit h (Or.inr hback) hexit r
      exact ⟨hsame.foreground, hsame.background.elim (·.trans hr) id⟩

/-- **What the numbers of an attribute are decoded to** is the attribute, if its bits are the values of
their types and its colours are not taken for other codes. -/
theorem decode_values (h : SeparateCodes codes) {attr : FepSgrAttr} (hattr : ValidSgrAttr attr) :
    decodeValues codes fepEmptyAttr (sgrValues codes attr) = attr ↔
      decodedBits attr.attr = attr.attr ∧ ColourKept codes attr.foreground 0 ∧
        ColourKept codes attr.background 10 := by
  rw [sgrValues, decodeValues_append, decodeValues_append, decodeValues_bits h]
  obtain ⟨hfore, hforeNot⟩ := decodeValues_foreground h.toEnterCodes hattr.foreground
    (show (FepSgrAttr.mk (decodedBits attr.attr) 0 0).foreground = 0 from rfl) rfl
  by_cases hf : ColourKept codes attr.foreground 0
  · rw [hfore hf]
    obtain ⟨hback, hbackNot⟩ := decodeValues_background h.toEnterCodes hattr.background
      (show (FepSgrAttr.mk (decodedBits attr.attr) attr.foreground 0).background = 0 from rfl)
    by_cases hb : ColourKept codes attr.background 10
    · rw [hback hb, FepSgrAttr.ext_iff]
      simp [hf, hb]
    · refine iff_of_false ?_ fun hall => hb hall.2.2
      intro heq
      have hzero := (hbackNot hb).2
      rw [heq] at hzero
      exact hb (Or.inl hzero)
  · refine iff_of_false ?_ fun hall => hf hall.2.1
    intro heq
    obtain ⟨hfzero, hbzero⟩ := hforeNot hf
    obtain ⟨hback, hbackNot⟩ := decodeValues_background h.toEnterCodes hattr.background hbzero
    apply hf
    left
    by_cases hb : ColourKept codes attr.background 10
    · have hsame := congrArg FepSgrAttr.foreground (hback hb)
      rw [heq] at hsame
      exact hsame.trans hfzero
    · have hsame := (hbackNot hb).1
      rw [heq] at hsame
      exact hsame.elim (·.trans hfzero) id

/-! ## The two functions -/

/-- A number that is sent for an attribute fits an `int`. -/
theorem lt_of_mem_sgrValues (h : SeparateCodes codes) {attr : FepSgrAttr}
    (hattr : ValidSgrAttr attr) : ∀ n ∈ sgrValues codes attr, n < 2 ^ 31 := by
  have hbit : ∀ i, ∀ n ∈ bitValues codes attr i, n < 2 ^ 31 := by
    intro i n hn
    have hlt := h.lt i
    unfold bitValues at hn
    split at hn
    · rw [List.mem_singleton.mp hn]
      omega
    · exact absurd hn (by simp)
  have hcolour : ∀ colour shift : Int, shift ≤ 10 → (colour = 0 ∨ IsForeground colour) →
      ∀ n ∈ (if colour ≠ 0 then [(colour + shift).toNat] else []), n < 2 ^ 31 := by
    intro colour shift hshift hvalid n hn
    split at hn
    · rw [List.mem_singleton.mp hn]
      unfold IsForeground at hvalid
      omega
    · exact absurd hn (by simp)
  have hfore := hcolour attr.foreground 0 (by omega) hattr.foreground
  rw [Int.add_zero] at hfore
  intro n hn
  simp only [sgrValues, List.mem_append] at hn
  rcases hn with ((((hn | hn) | hn) | hn) | hn) | hn
  · exact hbit _ n hn
  · exact hbit _ n hn
  · exact hbit _ n hn
  · exact hbit _ n hn
  · exact hfore n hn
  · exact hcolour attr.background 10 (by omega) hattr.background n hn

/-- A number is read as it was formatted. -/
theorem strtoul_formatInt (p : Platform) {n : Nat} (hn : n < 2 ^ 31) :
    (p.strtoul (formatInt n)).Passes ∧ (p.strtoul (formatInt n)).toInt = n := by
  have hall : ∀ b ∈ formatInt n, isDigit b = true := fun b hb => isDigit_of_mem_formatInt hb
  have hle : digitsValue (formatInt n) ≤ p.ulongMax := by
    have := p.ulongMax_ge
    rw [digitsValue_formatInt]
    omega
  refine ⟨passes_of_digits hall hle, ?_⟩
  rw [Strtoul.toInt, value_strtoul hall hle, digitsValue_formatInt, BitVec.toInt_ofNat']
  exact Int.bmod_eq_of_le (by omega) (by omega)

/-- Formatted numbers are parameters that stand for them. -/
theorem paramValues_formatInt (p : Platform) {values : List Nat} (h : ∀ n ∈ values, n < 2 ^ 31) :
    ParamsPass p (values.map fun n : Nat => formatInt n) ∧
      paramValues p (values.map fun n : Nat => formatInt n) = values.map fun n : Nat => (n : Int) := by
  constructor
  · intro param hparam
    obtain ⟨n, hn, rfl⟩ := List.mem_map.mp hparam
    exact (strtoul_formatInt p (h n hn)).1
  · rw [paramValues, List.map_map]
    apply List.map_congr_left
    intro n hn
    rw [Function.comp_apply, (strtoul_formatInt p (h n hn)).2]

/-- The decoder gets the numbers of the encoder. -/
theorem sgrParamsToAttr_sgrParamsFromAttr (p : Platform) (h : SeparateCodes codes)
    {attr : FepSgrAttr} (hattr : ValidSgrAttr attr) (hne : attr ≠ fepEmptyAttr) :
    sgrParamsToAttr p (sgrParamsFromAttr attr codes) codes =
      .ok (decodeValues codes fepEmptyAttr (sgrValues codes attr)) := by
  obtain ⟨hpass, hvalues⟩ := paramValues_formatInt p (lt_of_mem_sgrValues h hattr)
  rw [sgrParamsFromAttr_eq h.toEnterCodes hattr hne, sgrParamsToAttr_eq, if_pos hpass, hvalues]
  rfl

/-- The bits that are the values of their types: none, or underline and bold. -/
theorem decodedBits_eq_iff {bits : BitVec 32} (h : bits &&& fepSgrAttrMask = bits) :
    decodedBits bits = bits ↔ bits = 0 ∨ bits = fepSgrAttrUnderline ||| fepSgrAttrBold := by
  have hall : ∀ low : BitVec 4, decodedBits (low.setWidth 32) = low.setWidth 32 ↔
      low.setWidth 32 = 0 ∨ low.setWidth 32 = fepSgrAttrUnderline ||| fepSgrAttrBold := by
    decide
  have hlow : (bits.setWidth 4).setWidth 32 = bits := by
    have hmask : bits.toNat &&& (2 ^ 4 - 1) = bits.toNat := congrArg BitVec.toNat h
    rw [Nat.and_two_pow_sub_one_eq_mod] at hmask
    apply BitVec.eq_of_toNat_eq
    rw [BitVec.toNat_setWidth, BitVec.toNat_setWidth, hmask, Nat.mod_eq_of_lt bits.isLt]
  rw [← hlow]
  exact hall _

/-- **The attributes that go through the parameters and back**: no bits or exactly underline and bold, and
colours whose numbers the table has no other code for. -/
theorem sgrRoundTrip_iff (p : Platform) (h : SeparateCodes codes) {attr : FepSgrAttr}
    (hattr : ValidSgrAttr attr) :
    sgrParamsToAttr p (sgrParamsFromAttr attr codes) codes = .ok attr ↔
      (attr.attr = 0 ∨ attr.attr = fepSgrAttrUnderline ||| fepSgrAttrBold) ∧
        ColourKept codes attr.foreground 0 ∧ ColourKept codes attr.background 10 := by
  rw [← decodedBits_eq_iff hattr.bits]
  by_cases hne : attr = fepEmptyAttr
  · subst hne
    exact iff_of_true rfl ⟨by decide, Or.inl rfl, Or.inl rfl⟩
  · rw [sgrParamsToAttr_sgrParamsFromAttr p h hattr hne, ← decode_values h hattr]
    exact ⟨Except.ok.inj, congrArg Except.ok⟩

theorem separateCodes_xterm : SeparateCodes xtermCodes where
  pos i hi := by cases i <;> first | decide | exact absurd rfl hi
  distinct i j hi hj := by revert hi hj; cases i <;> cases j <;> decide
  not_foreground i hi := by revert hi; cases i <;> decide
  not_background i hi := by revert hi; cases i <;> decide
  not_exit i j hi hj := by revert hi hj; cases i <;> cases j <;> decide
  not_22_25 i hi := by revert hi; cases i <;> decide
  lt i := by cases i <;> decide

theorem sgrRoundTrip_iff_red :
    sgrParamsToAttr .x86_64 (sgrParamsFromAttr ⟨0, 31, 0⟩ xtermCodes) xtermCodes = .ok ⟨0, 31, 0⟩ ↔
      ((0 : BitVec 32) = 0 ∨ (0 : BitVec 32) = fepSgrAttrUnderline ||| fepSgrAttrBold) ∧
        ColourKept xtermCodes 31 0 ∧ ColourKept xtermCodes 0 10 :=
  @sgrRoundTrip_iff xtermCodes .x86_64 separateCodes_xterm ⟨0, 31, 0⟩
    ⟨by decide, Or.inr (by decide), Or.inl rfl⟩

/-- Bold comes back as underline and bold. -/
theorem not_sgrRoundTrip_bold :
    ¬ ∀ (p : Platform) (codes : SgrCodes) (attr : FepSgrAttr), SeparateCodes codes →
      ValidSgrAttr attr → sgrParamsToAttr p (sgrParamsFromAttr attr codes) codes = .ok attr := by
  intro hall
  have hround := hall .x86_64 xtermCodes ⟨fepSgrAttrBold, 0, 0⟩ separateCodes_xterm
    ⟨by decide, Or.inl rfl, Or.inl rfl⟩
  have hdecoded : sgrParamsToAttr .x86_64 (sgrParamsFromAttr ⟨fepSgrAttrBold, 0, 0⟩ xtermCodes)
      xtermCodes = .ok ⟨fepSgrAttrUnderline ||| fepSgrAttrBold, 0, 0⟩ := by decide +kernel
  rw [hdecoded] at hround
  exact absurd hround (by decide)

end LibFep
