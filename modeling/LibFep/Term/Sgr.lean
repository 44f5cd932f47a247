import LibFep.Text.Split
import LibFep.Control.Message

/-!
# LibFep — SGR parameters and attributes

`fep/sgr.c`: the attributes the server keeps for the terminal and for the child, and their
translation to and from the parameters of an SGR sequence. Where the parameters are read, the bits of
`attr` are set and cleared with the values of `FepAttrType` as masks; where they are written, with
those of `FepSgrAttrType`.

* **`sgrApplyParam`** — what one parameter does, by the branch it takes.
* **`sgrParamsToAttr_eq`** — the parameters are applied in turn if all of them pass the assertion.
-/

namespace LibFep

/-! ## Attributes -/

/-- `FepSgrAttr`, with the enumeration `FepSgrAttrType` as an `unsigned int`. -/
@[ext] structure FepSgrAttr where
  attr : BitVec 32
  foreground : Int
  background : Int
  deriving DecidableEq, Repr

def fepEmptyAttr : FepSgrAttr := ⟨0, 0, 0⟩

def fepSgrAttrUnderline : BitVec 32 := 1
def fepSgrAttrStandout : BitVec 32 := 1 <<< 1
def fepSgrAttrBold : BitVec 32 := 1 <<< 2
def fepSgrAttrBlink : BitVec 32 := 1 <<< 3
def fepSgrAttrMask : BitVec 32 := 0x0F

def fepAttrTypeUnderline : BitVec 32 := 0
def fepAttrTypeNone : BitVec 32 := 3
def fepAttrTypeStandout : BitVec 32 := 4
def fepAttrTypeBold : BitVec 32 := 5
def fepAttrTypeBlink : BitVec 32 := 6

def fepAttrUnderlineNone : BitVec 32 := 0

/-- The attributes that have an entry in the terminal's table of codes. -/
inductive FepSgrParamIndex where
  | enterUnderline
  | exitUnderline
  | enterStandout
  | exitStandout
  | enterBold
  | enterBlink
  | origPair
  | origFore
  | origBack
  deriving DecidableEq, Repr

/-- `sgr_codes`. -/
abbrev SgrCodes := FepSgrParamIndex → Int

def sgrAttrFromAttribute (attr : FepAttribute) : FepSgrAttr :=
  let set (type none mask bits : BitVec 32) : BitVec 32 :=
    if attr.type = type ∧ attr.value ≠ none then bits ||| mask else bits
  { fepEmptyAttr with
    attr := set fepAttrTypeBlink 0 fepSgrAttrBlink <|
      set fepAttrTypeBold 0 fepSgrAttrBold <|
      set fepAttrTypeStandout 0 fepSgrAttrStandout <|
      set fepAttrTypeUnderline fepAttrUnderlineNone fepSgrAttrUnderline 0 }

/-! ## From parameters to attributes -/

/-- What one parameter does to the attributes: the branches of `_fep_sgr_params_to_attr`. -/
def sgrApplyParam (codes : SgrCodes) (r : FepSgrAttr) (param : Int) : FepSgrAttr :=
  if param = 0 then fepEmptyAttr
  else if param = codes .enterUnderline then { r with attr := r.attr ||| fepAttrTypeUnderline }
  else if param = codes .exitUnderline then { r with attr := r.attr &&& ~~~fepAttrTypeUnderline }
  else if param = codes .enterStandout then { r with attr := r.attr ||| fepAttrTypeStandout }
  else if param = codes .exitStandout then { r with attr := r.attr &&& ~~~fepAttrTypeStandout }
  else if param = codes .enterBold then { r with attr := r.attr ||| fepAttrTypeBold }
  else if param = codes .enterBlink then { r with attr := r.attr ||| fepAttrTypeBlink }
  else if param = codes .origPair then { r with foreground := 0, background := 0 }
  else if param = codes .origFore then { r with foreground := 0 }
  else if param = codes .origBack then { r with background := 0 }
  -- normal color or intensity
  else if param = 22 then { r with attr := r.attr &&& ~~~fepAttrTypeBold }
  -- blink: off
  else if param = 25 then { r with attr := r.attr &&& ~~~fepAttrTypeBlink }
  else if (30 ≤ param ∧ param ≤ 37) ∨ (90 ≤ param ∧ param ≤ 97) then { r with foreground := param }
  else if (40 ≤ param ∧ param ≤ 47) ∨ (100 ≤ param ∧ param ≤ 107) then
    { r with background := param - 10 }
  else r

def sgrParamsToAttr (p : Platform) (params : List (List UInt8)) (codes : SgrCodes) :
    Except Fault FepSgrAttr :=
  params.foldlM (fun r param =>
    if (p.strtoul param).Passes then .ok (sgrApplyParam codes r (p.strtoul param).toInt)
    else .error .assertion) fepEmptyAttr

/-! ## From attributes to parameters -/

def sgrParamsFromAttr (attr : FepSgrAttr) (codes : SgrCodes) : List (List UInt8) :=
  let bit (mask : BitVec 32) (index : FepSgrParamIndex) : List (List UInt8) :=
    if attr.attr &&& mask ≠ 0 ∧ codes index ≠ 0 then [formatInt (codes index)] else []
  if attr = fepEmptyAttr then []
  else
    bit fepSgrAttrUnderline .enterUnderline ++ bit fepSgrAttrStandout .enterStandout ++
      bit fepSgrAttrBold .enterBold ++ bit fepSgrAttrBlink .enterBlink ++
      (if attr.foreground ≠ 0 then [formatInt attr.foreground] else []) ++
      (if attr.background ≠ 0 then [formatInt (attr.background + 10)] else [])

/-! ## The parameters that pass the assertion -/

/-- `errno == 0 && *endptr == '\0'` for every parameter. -/
def ParamsPass (p : Platform) (params : List (List UInt8)) : Prop :=
  ∀ param ∈ params, (p.strtoul param).Passes

instance (p : Platform) (params : List (List UInt8)) : Decidable (ParamsPass p params) :=
  inferInstanceAs (Decidable (∀ param ∈ params, (p.strtoul param).Passes))

/-- The numbers the parameters stand for. -/
def paramValues (p : Platform) (params : List (List UInt8)) : List Int :=
  params.map fun param => (p.strtoul param).toInt

theorem foldlM_applyParam (p : Platform) (codes : SgrCodes) (params : List (List UInt8))
    (r : FepSgrAttr) :
    params.foldlM (fun r param =>
      if (p.strtoul param).Passes then .ok (sgrApplyParam codes r (p.strtoul param).toInt)
      else .error .assertion) r =
      if ParamsPass p params then
        (.ok ((paramValues p params).foldl (sgrApplyParam codes) r) : Except Fault FepSgrAttr)
      else .error .assertion := by
  induction params generalizing r with
  | nil => rfl
  | cons param params ih =>
    rw [List.foldlM_cons]
    by_cases hpass : (p.strtoul param).Passes
    · rw [if_pos hpass]
      show params.foldlM _ (sgrApplyParam codes r (p.strtoul param).toInt) = _
      have hiff : ParamsPass p (param :: params) ↔ ParamsPass p params := by
        simp [ParamsPass, hpass]
      rw [ih]
      exact if_congr hiff.symm rfl rfl
    · rw [if_neg hpass, if_neg (by simp [ParamsPass, hpass])]
      rfl

/-- **The parameters are applied in turn, to no attributes, if all of them pass the assertion.** -/
theorem sgrParamsToAttr_eq (p : Platform) (params : List (List UInt8)) (codes : SgrCodes) :
    sgrParamsToAttr p params codes =
      if ParamsPass p params then
        .ok ((paramValues p params).foldl (sgrApplyParam codes) fepEmptyAttr)
      else .error .assertion :=
  foldlM_applyParam p codes params fepEmptyAttr

end LibFep
