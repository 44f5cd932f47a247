import LibFep.Lib.ControlParser
import LibFep.Term.PtyOutput

/-!
# LibFep — the rendition of the terminal

What the terminal makes of the attributes that `_fep_output_set_attributes` and `apply_attr` of
`fep/output.c` send to it. The terminal reads everything it gets byte by byte and applies each SGR
parameter to the rendition it has.

* **`receive_sgr`** — the terminal applies the numbers of an SGR sequence in turn.
* **`select_values`** — the numbers sent for an attribute add it to the rendition.
* **`Shows.setAttributes`** — they lead to the attribute if nothing has to be cleared for it, or
  everything.
* **`Shows.applyAttr`** — `apply_attr` leads to its target.
-/

namespace LibFep

open Lib

variable {loc : Locale}

/-! ## The terminal -/

/-- The attribute that a code sets, by the terminal's table. -/
def enterMask (codes : SgrCodes) (value : Int) : BitVec 32 :=
  if value = codes .enterUnderline then fepSgrAttrUnderline
  else if value = codes .enterStandout then fepSgrAttrStandout
  else if value = codes .enterBold then fepSgrAttrBold
  else if value = codes .enterBlink then fepSgrAttrBlink
  else 0

def IsForeground (value : Int) : Prop := (30 ≤ value ∧ value ≤ 37) ∨ (90 ≤ value ∧ value ≤ 97)

def IsBackground (value : Int) : Prop := (40 ≤ value ∧ value ≤ 47) ∨ (100 ≤ value ∧ value ≤ 107)

instance : DecidablePred IsForeground := fun value =>
  inferInstanceAs (Decidable ((30 ≤ value ∧ value ≤ 37) ∨ (90 ≤ value ∧ value ≤ 97)))

instance : DecidablePred IsBackground := fun value =>
  inferInstanceAs (Decidable ((40 ≤ value ∧ value ≤ 47) ∨ (100 ≤ value ∧ value ≤ 107)))

/-- What one parameter does to the rendition. The background is kept as the server keeps it, 10 below its
code. -/
def selectRendition (codes : SgrCodes) (r : FepSgrAttr) (value : Nat) : FepSgrAttr :=
  if value = 0 then fepEmptyAttr
  else if enterMask codes value ≠ 0 then { r with attr := r.attr ||| enterMask codes value }
  else if IsForeground value then { r with foreground := value }
  else if IsBackground value then { r with background := value - 10 }
  else r

structure Rendering where
  rendition : FepSgrAttr
  /-- The bytes printed, each with the rendition it was printed in. -/
  printed : List (UInt8 × FepSgrAttr)

def sgrDevice (codes : SgrCodes) : Device Rendering where
  print r b := { r with printed := r.printed ++ [(b, r.rendition)] }
  control r params intermediates final :=
    if final = sgrFinal ∧ intermediates = [] ∧
        params.all (fun b => isDecimal b || b == 0x3B) = true then
      { r with rendition := (numbers params).foldl (selectRendition codes) r.rendition }
    else r

/-- A piece of output. `exit_attribute_mode` resets the rendition, the other terminfo strings keep it. -/
def receive (codes : SgrCodes) (s : ParserState × Rendering) : TtyOutput → ParserState × Rendering
  | .putp .exitAttributeMode => (.ground, { s.2 with rendition := fepEmptyAttr })
  | .putp _ => (.ground, s.2)
  | .sgr bytes | .write bytes => bytes.foldl (sgrDevice codes).feed s

/-- The terminal after all that was sent to it. -/
def rendering (codes : SgrCodes) (fep : Fep loc) : ParserState × Rendering :=
  fep.output.foldl (receive codes) (.ground, ⟨fepEmptyAttr, []⟩)

/-! ## The table of codes -/

def enterBit : FepSgrParamIndex → BitVec 32
  | .enterUnderline => fepSgrAttrUnderline
  | .enterStandout => fepSgrAttrStandout
  | .enterBold => fepSgrAttrBold
  | .enterBlink => fepSgrAttrBlink
  | .exitUnderline | .exitStandout | .origPair | .origFore | .origBack => 0

/-- The codes that set an attribute can be told apart, from each other and from the colours. -/
structure EnterCodes (codes : SgrCodes) : Prop where
  pos : ∀ i, enterBit i ≠ 0 → 0 < codes i
  distinct : ∀ i j, enterBit i ≠ 0 → enterBit j ≠ 0 → codes i = codes j → i = j
  not_foreground : ∀ i, enterBit i ≠ 0 → ¬ IsForeground (codes i)
  not_background : ∀ i, enterBit i ≠ 0 → ¬ IsBackground (codes i)

theorem enterMask_code {codes : SgrCodes} (h : EnterCodes codes) {i : FepSgrParamIndex}
    (hi : enterBit i ≠ 0) : enterMask codes (codes i) = enterBit i := by
  have hne : ∀ j, enterBit j ≠ 0 → i ≠ j → codes i ≠ codes j :=
    fun j hj hij heq => hij (h.distinct i j hi hj heq)
  unfold enterMask
  cases i with
  | enterUnderline => exact if_pos rfl
  | enterStandout => rw [if_neg (hne _ (by decide) (by decide)), if_pos rfl]; rfl
  | enterBold =>
    rw [if_neg (hne _ (by decide) (by decide)), if_neg (hne _ (by decide) (by decide)), if_pos rfl]
    rfl
  | enterBlink =>
    rw [if_neg (hne _ (by decide) (by decide)), if_neg (hne _ (by decide) (by decide)),
      if_neg (hne _ (by decide) (by decide)), if_pos rfl]
    rfl
  | exitUnderline | exitStandout | origPair | origFore | origBack => exact absurd rfl hi

theorem enterMask_colour {codes : SgrCodes} (h : EnterCodes codes) {value : Int}
    (hvalue : IsForeground value ∨ IsBackground value) : enterMask codes value = 0 := by
  have hne : ∀ i, enterBit i ≠ 0 → value ≠ codes i := by
    rintro i hi rfl
    exact hvalue.elim (h.not_foreground i hi) (h.not_background i hi)
  unfold enterMask
  rw [if_neg (hne _ (by decide)), if_neg (hne _ (by decide)), if_neg (hne _ (by decide)),
    if_neg (hne _ (by decide))]

theorem selectRendition_code {codes : SgrCodes} (h : EnterCodes codes) {i : FepSgrParamIndex}
    (hi : enterBit i ≠ 0) (r : FepSgrAttr) :
    selectRendition codes r (codes i).toNat = { r with attr := r.attr ||| enterBit i } := by
  have hpos := h.pos i hi
  have hmask : enterMask codes ((codes i).toNat : Int) = enterBit i := by
    rw [Int.toNat_of_nonneg (Int.le_of_lt hpos), enterMask_code h hi]
  rw [selectRendition, if_neg (by omega), hmask, if_pos hi]

theorem selectRendition_foreground {codes : SgrCodes} (h : EnterCodes codes) {value : Int}
    (hvalue : IsForeground value) (r : FepSgrAttr) :
    selectRendition codes r value.toNat = { r with foreground := value } := by
  have hpos : 0 < value := by
    unfold IsForeground at hvalue
    omega
  have hcast : (value.toNat : Int) = value := Int.toNat_of_nonneg (Int.le_of_lt hpos)
  rw [selectRendition, if_neg (by omega), hcast, enterMask_colour h (Or.inl hvalue),
    if_neg (by simp), if_pos hvalue]

theorem selectRendition_background {codes : SgrCodes} (h : EnterCodes codes) {value : Int}
    (hvalue : IsBackground value) (r : FepSgrAttr) :
    selectRendition codes r value.toNat = { r with background := value - 10 } := by
  have hpos : 0 < value := by
    unfold IsBackground at hvalue
    omega
  have hfore : ¬ IsForeground value := by
    unfold IsBackground at hvalue
    unfold IsForeground
    omega
  have hcast : (value.toNat : Int) = value := Int.toNat_of_nonneg (Int.le_of_lt hpos)
  rw [selectRendition, if_neg (by omega), hcast, enterMask_colour h (Or.inr hvalue),
    if_neg (by simp), if_neg hfore, if_pos hvalue]

/-! ## The parameters of an attribute -/

/-- An attribute that the server can be asked for: known attributes, and colours of a terminal. -/
structure ValidSgrAttr (attr : FepSgrAttr) : Prop where
  bits : attr.attr &&& fepSgrAttrMask = attr.attr
  foreground : attr.foreground = 0 ∨ IsForeground attr.foreground
  background : attr.background = 0 ∨ IsForeground attr.background

theorem validSgrAttr_empty : ValidSgrAttr fepEmptyAttr := ⟨by decide, Or.inl rfl, Or.inl rfl⟩

theorem validSgrAttr_sgrAttrFromAttribute (attr : FepAttribute) :
    ValidSgrAttr (sgrAttrFromAttribute attr) := by
  have hset (type none mask bits : BitVec 32) (hmask : mask &&& fepSgrAttrMask = mask)
      (hbits : bits &&& fepSgrAttrMask = bits) :
      (if attr.type = type ∧ attr.value ≠ none then bits ||| mask else bits) &&& fepSgrAttrMask =
        if attr.type = type ∧ attr.value ≠ none then bits ||| mask else bits := by
    split
    · rw [BitVec.and_or_distrib_right, hmask, hbits]
    · exact hbits
  refine ⟨?_, Or.inl rfl, Or.inl rfl⟩
  exact hset _ _ _ _ (by decide) <| hset _ _ _ _ (by decide) <| hset _ _ _ _ (by decide) <|
    hset _ _ _ _ (by decide) (by decide)

/-- The numbers that are sent for one attribute, if it is set. -/
def bitValues (codes : SgrCodes) (attr : FepSgrAttr) (i : FepSgrParamIndex) : List Nat :=
  if attr.attr &&& enterBit i ≠ 0 ∧ codes i ≠ 0 then [(codes i).toNat] else []

/-- All numbers that are sent, for attributes that are not empty. -/
def sgrValues (codes : SgrCodes) (attr : FepSgrAttr) : List Nat :=
  bitValues codes attr .enterUnderline ++ bitValues codes attr .enterStandout ++
    bitValues codes attr .enterBold ++ bitValues codes attr .enterBlink ++
    (if attr.foreground ≠ 0 then [attr.foreground.toNat] else []) ++
    (if attr.background ≠ 0 then [(attr.background + 10).toNat] else [])

/-- What is sent are these numbers. -/
theorem sgrParamsFromAttr_eq {codes : SgrCodes} (hcodes : EnterCodes codes) {attr : FepSgrAttr}
    (hattr : ValidSgrAttr attr) (hne : attr ≠ fepEmptyAttr) :
    sgrParamsFromAttr attr codes = (sgrValues codes attr).map fun n : Nat => formatInt n := by
  have hbit (i : FepSgrParamIndex) (hi : enterBit i ≠ 0) :
      (if attr.attr &&& enterBit i ≠ 0 ∧ codes i ≠ 0 then [formatInt (codes i)] else []) =
        (bitValues codes attr i).map fun n : Nat => formatInt n := by
    unfold bitValues
    split
    · rw [List.map_singleton, Int.toNat_of_nonneg (Int.le_of_lt (hcodes.pos i hi))]
    · rfl
  have hcolour (colour shift : Int) (hnonneg : colour ≠ 0 → 0 ≤ colour + shift) :
      (if colour ≠ 0 then [formatInt (colour + shift)] else []) =
        (if colour ≠ 0 then [(colour + shift).toNat] else []).map fun n : Nat => formatInt n := by
    split
    · next hc => rw [List.map_singleton, Int.toNat_of_nonneg (hnonneg hc)]
    · rfl
  have hfore := hcolour attr.foreground 0 (by
    rcases hattr.foreground with h | h
    · exact fun hc => absurd h hc
    · unfold IsForeground at h
      omega)
  have hback := hcolour attr.background 10 (by
    rcases hattr.background with h | h
    · exact fun hc => absurd h hc
    · unfold IsForeground at h
      omega)
  rw [Int.add_zero] at hfore
  unfold sgrParamsFromAttr sgrValues
  rw [if_neg hne, hfore, hback]
  simp only [List.map_append]
  rw [← hbit _ (by decide), ← hbit _ (by decide), ← hbit _ (by decide), ← hbit _ (by decide)]
  rfl

/-- The attributes of both. -/
def addAttr (old attr : FepSgrAttr) : FepSgrAttr where
  attr := old.attr ||| attr.attr
  foreground := if attr.foreground = 0 then old.foreground else attr.foreground
  background := if attr.background = 0 then old.background else attr.background

/-- The bit of an attribute is one bit. -/
theorem and_enterBit (x : BitVec 32) (i : FepSgrParamIndex) (h : x &&& enterBit i ≠ 0) :
    x &&& enterBit i = enterBit i := by
  have hone (n : Nat) (hbit : enterBit i = BitVec.twoPow 32 n) : x &&& enterBit i = enterBit i := by
    rw [hbit, BitVec.and_twoPow] at h ⊢
    split at h
    · next hset => rw [if_pos hset]
    · exact absurd rfl h
  cases i with
  | enterUnderline => exact hone 0 (by decide)
  | enterStandout => exact hone 1 (by decide)
  | enterBold => exact hone 2 (by decide)
  | enterBlink => exact hone 3 (by decide)
  | exitUnderline | exitStandout | origPair | origFore | origBack => exact BitVec.and_zero

theorem select_bitValues {codes : SgrCodes} (hcodes : EnterCodes codes) {i : FepSgrParamIndex}
    (hi : enterBit i ≠ 0) (attr r : FepSgrAttr) :
    (bitValues codes attr i).foldl (selectRendition codes) r =
      { r with attr := r.attr ||| (attr.attr &&& enterBit i) } := by
  have hpos := hcodes.pos i hi
  unfold bitValues
  split
  · next hset =>
    rw [List.foldl_cons, List.foldl_nil, selectRendition_code hcodes hi,
      and_enterBit _ i hset.1]
  · next hclear =>
    have hzero : attr.attr &&& enterBit i = 0 := by
      by_contra hset
      exact hclear ⟨hset, by omega⟩
    rw [List.foldl_nil, hzero]
    exact FepSgrAttr.ext BitVec.or_zero.symm rfl rfl

/-- **The numbers add the attribute** to the rendition. -/
theorem select_values {codes : SgrCodes} (hcodes : EnterCodes codes) {attr : FepSgrAttr}
    (hattr : ValidSgrAttr attr) (r : FepSgrAttr) :
    (sgrValues codes attr).foldl (selectRendition codes) r = addAttr r attr := by
  have hbit {i : FepSgrParamIndex} (hi : enterBit i ≠ 0) (r : FepSgrAttr) :=
    select_bitValues hcodes hi attr r
  have hmask : fepSgrAttrMask = enterBit .enterUnderline ||| enterBit .enterStandout |||
      enterBit .enterBold ||| enterBit .enterBlink := by decide
  have hbits : r.attr ||| (attr.attr &&& enterBit .enterUnderline) |||
      (attr.attr &&& enterBit .enterStandout) ||| (attr.attr &&& enterBit .enterBold) |||
      (attr.attr &&& enterBit .enterBlink) = r.attr ||| attr.attr := by
    conv_rhs => rw [← hattr.bits, hmask]
    simp only [BitVec.or_assoc, BitVec.and_or_distrib_left]
  have hfore (r : FepSgrAttr) :
      (if attr.foreground ≠ 0 then [attr.foreground.toNat] else []).foldl (selectRendition codes) r =
        { r with foreground := if attr.foreground = 0 then r.foreground else attr.foreground } := by
    rcases hattr.foreground with h | h
    · simp [h]
    · have hne : attr.foreground ≠ 0 := by
        unfold IsForeground at h
        omega
      rw [if_pos hne, if_neg hne, List.foldl_cons, List.foldl_nil, selectRendition_foreground hcodes h]
  have hback (r : FepSgrAttr) :
      (if attr.background ≠ 0 then [(attr.background + 10).toNat] else []).foldl
        (selectRendition codes) r =
        { r with background := if attr.background = 0 then r.background else attr.background } := by
    rcases hattr.background with h | h
    · simp [h]
    · have hne : attr.background ≠ 0 := by
        unfold IsForeground at h
        omega
      have hcode : IsBackground (attr.background + 10) := by
        unfold IsForeground at h
        unfold IsBackground
        omega
      rw [if_pos hne, if_neg hne, List.foldl_cons, List.foldl_nil,
        selectRendition_background hcodes hcode, Int.add_sub_cancel]
  unfold sgrValues
  rw [List.foldl_append, List.foldl_append, List.foldl_append, List.foldl_append, List.foldl_append,
    hbit (by decide), hbit (by decide), hbit (by decide), hbit (by decide), hfore, hback]
  exact congrArg (fun bits => FepSgrAttr.mk bits _ _) hbits

/-- An attribute that is not empty takes at least one number. -/
theorem sgrValues_ne_nil {codes : SgrCodes} (hcodes : EnterCodes codes) {attr : FepSgrAttr}
    (hattr : ValidSgrAttr attr) (hne : attr ≠ fepEmptyAttr) : sgrValues codes attr ≠ [] := by
  intro hnil
  have hadd := select_values hcodes hattr fepEmptyAttr
  rw [hnil, List.foldl_nil] at hadd
  -- without numbers nothing is added to no attributes
  refine hne (hadd.trans (FepSgrAttr.ext ?_ ?_ ?_)).symm
  · exact BitVec.zero_or
  · exact ite_eq_right_iff.mpr fun h => h.symm
  · exact ite_eq_right_iff.mpr fun h => h.symm

/-- The numbers are read back from the parameters they are sent in. -/
theorem numbers_strjoinv {values : List Nat} (hne : values ≠ []) :
    numbers (strjoinv [0x3B] (values.map fun n : Nat => formatInt n)) = values := by
  have hdigits (n : Nat) : ∀ b ∈ formatInt n, isDecimal b = true :=
    fun b hb => isDigit_of_mem_formatInt hb
  have hvalue (n : Nat) : decimalValue (formatInt n) 0 = n := digitsValue_formatInt n
  induction values with
  | nil => exact absurd rfl hne
  | cons n values ih =>
    cases values with
    | nil =>
      show numbers (formatInt n) = [n]
      rw [numbers_of_digits (hdigits n), hvalue]
    | cons m values =>
      show numbers (formatInt n ++ 0x3B :: strjoinv [0x3B] _) = _
      rw [numbers_append (hdigits n), hvalue]
      exact congrArg (n :: ·) (ih (List.cons_ne_nil m values))

theorem mem_strjoinv_formatInt {values : List Nat} {b : UInt8}
    (h : b ∈ strjoinv [0x3B] (values.map fun n : Nat => formatInt n)) :
    isDecimal b = true ∨ b = 0x3B := by
  rcases mem_of_mem_strjoinv h with hsep | ⟨token, htoken, hb⟩
  · exact Or.inr (List.mem_singleton.mp hsep)
  · obtain ⟨n, -, rfl⟩ := List.mem_map.mp htoken
    exact Or.inl (isDigit_of_mem_formatInt hb)

/-- The terminal applies the numbers of an SGR sequence. -/
theorem receive_sgr (codes : SgrCodes) (values : List Nat) (s : ParserState × Rendering) :
    receive codes s (.sgr (csiFormat
      ⟨strjoinv [0x3B] (values.map fun n : Nat => formatInt n), [], sgrFinal⟩)) =
      (.ground, { s.2 with rendition :=
        (if values = [] then [0] else values).foldl (selectRendition codes) s.2.rendition }) := by
  obtain ⟨params, hparams⟩ :
      ∃ params, params = strjoinv [0x3B] (values.map fun n : Nat => formatInt n) := ⟨_, rfl⟩
  have hmem : ∀ b ∈ params, isDecimal b = true ∨ b = 0x3B := by
    rw [hparams]
    exact fun b hb => mem_strjoinv_formatInt hb
  have hok : ∀ b ∈ params, isParam b = true := by
    intro b hb
    rcases hmem b hb with h | rfl
    · simp only [isDecimal, isParam, Bool.and_eq_true, decide_eq_true_eq,
        UInt8.le_iff_toNat_le] at h ⊢
      exact ⟨h.1, h.2.trans (by decide)⟩
    · decide
  have hall : params.all (fun b => isDecimal b || b == 0x3B) = true := by
    rw [List.all_eq_true]
    intro b hb
    simpa using hmem b hb
  have hnumbers : numbers params = if values = [] then [0] else values := by
    rw [hparams]
    split
    · next hnil => rw [hnil]; rfl
    · next hne => exact numbers_strjoinv hne
  rw [← hparams, ← hnumbers]
  have hfeed := (sgrDevice codes).feed_sequence (sgrOf params hok) s
  refine hfeed.trans (congrArg (ParserState.ground, ·) ?_)
  exact if_pos ⟨rfl, rfl, hall⟩

/-! ## What the terminal shows -/

/-- The terminal is between two sequences, with this rendition. -/
structure Shows (codes : SgrCodes) (fep : Fep loc) (rendition : FepSgrAttr)
    (printed : List (UInt8 × FepSgrAttr)) : Prop where
  rendering : rendering codes fep = (.ground, ⟨rendition, printed⟩)
  attrTty : fep.attrTty = fepEmptyAttr
  sgrCodes : fep.sgrCodes = codes

/-- Something has to be cleared first: the condition of `apply_attr`. -/
def Clears (old attr : FepSgrAttr) : Prop :=
  old.attr &&& ~~~attr.attr &&& fepSgrAttrMask ≠ 0 ∨ (old.foreground ≠ 0 ∧ attr.foreground = 0) ∨
    (old.background ≠ 0 ∧ attr.background = 0)

theorem addAttr_of_not_clears {old attr : FepSgrAttr} (hold : ValidSgrAttr old)
    (h : ¬ Clears old attr) : addAttr old attr = attr := by
  simp only [Clears, not_or, not_and, ne_eq, not_not] at h
  obtain ⟨hbits, hfore, hback⟩ := h
  have hnone : old.attr &&& ~~~attr.attr = 0 := by
    rw [← hbits, BitVec.and_assoc, BitVec.and_comm (~~~attr.attr), ← BitVec.and_assoc, hold.bits]
  have hattr : old.attr ||| attr.attr = attr.attr := by
    ext i hi
    have hbit := congrArg (·[i]) hnone
    simp only [BitVec.getElem_and, BitVec.getElem_not, BitVec.getElem_or] at hbit ⊢
    -- a bit of `old` is one of `attr`
    cases hold : old.attr[i] with
    | false => exact Bool.false_or _
    | true => simpa [hold] using hbit
  refine FepSgrAttr.ext hattr ?_ ?_
  · show (if attr.foreground = 0 then old.foreground else attr.foreground) = attr.foreground
    split
    · next hzero => rw [hzero, not_imp_not.mp hfore hzero]
    · rfl
  · show (if attr.background = 0 then old.background else attr.background) = attr.background
    split
    · next hzero => rw [hzero, not_imp_not.mp hback hzero]
    · rfl

theorem not_clears_empty (attr : FepSgrAttr) : ¬ Clears fepEmptyAttr attr := by
  simp [Clears, fepEmptyAttr]

theorem rendering_of_output (codes : SgrCodes) {fep fep' : Fep loc} {o : TtyOutput}
    (h : fep'.output = fep.output ++ [o]) :
    rendering codes fep' = receive codes (rendering codes fep) o := by
  rw [rendering, h, List.foldl_append, List.foldl_cons, List.foldl_nil, rendering]

variable {codes : SgrCodes} {fep : Fep loc} {old attr : FepSgrAttr}
  {printed : List (UInt8 × FepSgrAttr)}

/-- **The terminal has the attributes that are set** if nothing has to be cleared for them, or
everything. -/
theorem Shows.setAttributes (hcodes : EnterCodes codes) (h : Shows codes fep old printed)
    (hold : ValidSgrAttr old) (hattr : ValidSgrAttr attr)
    (hclear : attr = fepEmptyAttr ∨ ¬ Clears old attr) :
    Shows codes (outputSetAttributes fep attr) attr printed := by
  refine ⟨?_, h.attrTty, h.sgrCodes⟩
  rw [rendering_of_output codes (show (outputSetAttributes fep attr).output = fep.output ++ [_] from
    rfl), h.rendering, h.sgrCodes]
  by_cases hne : attr = fepEmptyAttr
  · rw [hne]
    exact receive_sgr codes [] (.ground, ⟨old, printed⟩)
  · have hvalues := sgrValues_ne_nil hcodes hattr hne
    rw [sgrParamsFromAttr_eq hcodes hattr hne]
    refine (receive_sgr codes _ (.ground, ⟨old, printed⟩)).trans ?_
    rw [if_neg hvalues, select_values hcodes hattr,
      addAttr_of_not_clears hold (hclear.resolve_left hne)]

theorem Shows.exitAttributeMode (h : Shows codes fep old printed) :
    Shows codes (putp fep .exitAttributeMode) fepEmptyAttr printed := by
  refine ⟨?_, h.attrTty, h.sgrCodes⟩
  rw [rendering_of_output codes (show (putp fep .exitAttributeMode).output = fep.output ++ [_] from
    rfl), h.rendering]
  rfl

/-- Bytes without ESC are printed in the rendition of the terminal. -/
theorem Shows.writeTty (h : Shows codes fep old printed) {bytes : List UInt8}
    (hbytes : escape ∉ bytes) :
    Shows codes (writeTty fep bytes) old (printed ++ bytes.map fun b => (b, old)) := by
  have hprint (bytes : List UInt8) (printed : List (UInt8 × FepSgrAttr)) :
      bytes.foldl (sgrDevice codes).print ⟨old, printed⟩ =
        ⟨old, printed ++ bytes.map fun b => (b, old)⟩ := by
    induction bytes generalizing printed with
    | nil => rw [List.foldl_nil, List.map_nil, List.append_nil]
    | cons b bytes ih =>
      rw [List.foldl_cons]
      refine (ih (printed ++ [(b, old)])).trans ?_
      rw [List.append_assoc, List.singleton_append, List.map_cons]
  refine ⟨?_, h.attrTty, h.sgrCodes⟩
  rw [rendering_of_output codes (show (LibFep.writeTty fep bytes).output = fep.output ++ [_] from
    rfl), h.rendering]
  exact ((sgrDevice codes).feed_text hbytes _).trans (congrArg (ParserState.ground, ·) (hprint _ _))

/-- `apply_attr` leads to its target, by way of a reset where something has to be cleared. -/
theorem Shows.applyAttr (hcodes : EnterCodes codes) (h : Shows codes fep fep.attr printed)
    (hold : ValidSgrAttr fep.attr) (hattr : ValidSgrAttr attr) :
    Shows codes (applyAttr fep attr) attr printed := by
  unfold LibFep.applyAttr
  split
  · exact h.exitAttributeMode.setAttributes hcodes validSgrAttr_empty hattr
      (Or.inr (not_clears_empty attr))
  · next hclear =>
    split
    · exact h.setAttributes hcodes hold hattr (Or.inr hclear)
    · next heq => exact not_not.mp heq ▸ h

end LibFep
