import LibFep.Lib.LastWrite
import LibFep.Term.ChildOutput

/-!
# LibFep — whether SGR sequences accumulate

A terminal applies SGR sequences on top of each other. `_fep_sgr_params_to_attr` starts every sequence
from no attributes, and sets and clears the bits of `attr` with the masks of another enumeration.

* **`SgrBranch`** — the branches of `_fep_sgr_params_to_attr`, with what each of them writes and which
  attributes of the terminal it is about.
* **`get_sgrAttr`** — a field of the attributes holds the last value that a parameter of the sequence
  writes to it, or 0.
* **`accumulate_iff`** — when two sequences do the same as one with the parameters of both, and when a
  sequence leaves an attribute that it is not about as it was.
-/

namespace LibFep

open Lib

variable {loc : Locale}

/-! ## Fields and branches -/

/-- The fields of `FepSgrAttr`, bit by bit. -/
inductive SgrField where
  | bit (i : Fin 32)
  | foreground
  | background
  deriving DecidableEq, Repr

def FepSgrAttr.get (a : FepSgrAttr) : SgrField → Int
  | .bit i => if a.attr.getLsbD i then 1 else 0
  | .foreground => a.foreground
  | .background => a.background

theorem FepSgrAttr.get_inj {a b : FepSgrAttr} : a.get = b.get ↔ a = b := by
  constructor
  · intro h
    refine FepSgrAttr.ext ?_ (congrFun h .foreground) (congrFun h .background)
    refine BitVec.eq_of_getLsbD_eq fun i hi => ?_
    have hbit := congrFun h (.bit ⟨i, hi⟩)
    simp only [FepSgrAttr.get] at hbit
    cases ha : a.attr.getLsbD i <;> cases hb : b.attr.getLsbD i <;> simp_all
  · exact congrArg FepSgrAttr.get

/-- The branches of `_fep_sgr_params_to_attr`, in their order. -/
inductive SgrBranch where
  | reset
  | enterUnderline
  | exitUnderline
  | enterStandout
  | exitStandout
  | enterBold
  | enterBlink
  | origPair
  | origFore
  | origBack
  | normalIntensity
  | blinkOff
  | foreground (color : Int)
  | background (color : Int)
  | other
  deriving DecidableEq, Repr

/-- The branch that a parameter takes. -/
def sgrBranch (codes : SgrCodes) (param : Int) : SgrBranch :=
  if param = 0 then .reset
  else if param = codes .enterUnderline then .enterUnderline
  else if param = codes .exitUnderline then .exitUnderline
  else if param = codes .enterStandout then .enterStandout
  else if param = codes .exitStandout then .exitStandout
  else if param = codes .enterBold then .enterBold
  else if param = codes .enterBlink then .enterBlink
  else if param = codes .origPair then .origPair
  else if param = codes .origFore then .origFore
  else if param = codes .origBack then .origBack
  else if param = 22 then .normalIntensity
  else if param = 25 then .blinkOff
  else if (30 ≤ param ∧ param ≤ 37) ∨ (90 ≤ param ∧ param ≤ 97) then .foreground param
  else if (40 ≤ param ∧ param ≤ 47) ∨ (100 ≤ param ∧ param ≤ 107) then .background (param - 10)
  else .other

/-- A write of one value to the bits of a mask. -/
def writeBits (mask : BitVec 32) (value : Int) : SgrField → Option Int
  | .bit i => if mask.getLsbD i then some value else none
  | _ => none

def writeColors (foreground background : Option Int) : SgrField → Option Int
  | .bit _ => none
  | .foreground => foreground
  | .background => background

/-- What a branch writes. -/
def SgrBranch.writes : SgrBranch → SgrField → Option Int
  | .reset => fun _ => some 0
  | .enterUnderline => writeBits fepAttrTypeUnderline 1
  | .exitUnderline => writeBits fepAttrTypeUnderline 0
  | .enterStandout => writeBits fepAttrTypeStandout 1
  | .exitStandout => writeBits fepAttrTypeStandout 0
  | .enterBold => writeBits fepAttrTypeBold 1
  | .enterBlink => writeBits fepAttrTypeBlink 1
  | .origPair => writeColors (some 0) (some 0)
  | .origFore => writeColors (some 0) none
  | .origBack => writeColors none (some 0)
  | .normalIntensity => writeBits fepAttrTypeBold 0
  | .blinkOff => writeBits fepAttrTypeBlink 0
  | .foreground color => writeColors (some color) none
  | .background color => writeColors none (some color)
  | .other => fun _ => none

theorem get_setBits (a : FepSgrAttr) (mask : BitVec 32) :
    ({ a with attr := a.attr ||| mask } : FepSgrAttr).get = update a.get (writeBits mask 1) := by
  funext f
  cases f with
  | bit i =>
    simp only [FepSgrAttr.get, BitVec.getLsbD_or, update, writeBits]
    cases mask.getLsbD i <;> simp
  | foreground => rfl
  | background => rfl

theorem get_clearBits (a : FepSgrAttr) (mask : BitVec 32) :
    ({ a with attr := a.attr &&& ~~~mask } : FepSgrAttr).get = update a.get (writeBits mask 0) := by
  funext f
  cases f with
  | bit i =>
    simp only [FepSgrAttr.get, BitVec.getLsbD_and, BitVec.getLsbD_not, i.isLt, decide_true,
      Bool.true_and, update, writeBits]
    cases mask.getLsbD i <;> simp
  | foreground => rfl
  | background => rfl

theorem get_setColors (a : FepSgrAttr) (foreground background : Option Int) :
    ({ a with
      foreground := foreground.getD a.foreground
      background := background.getD a.background } : FepSgrAttr).get =
      update a.get (writeColors foreground background) := by
  funext f
  cases f with
  | bit i => rfl
  | foreground => rfl
  | background => rfl

theorem get_fepEmptyAttr : fepEmptyAttr.get = fun _ => 0 := by
  funext f
  cases f with
  | bit i => simp [FepSgrAttr.get, fepEmptyAttr]
  | foreground => rfl
  | background => rfl

theorem get_ite {c : Prop} [Decidable c] {s : SgrField → Int} {a a' : FepSgrAttr}
    {branch branch' : SgrBranch} (h : a.get = update s branch.writes)
    (h' : a'.get = update s branch'.writes) :
    (if c then a else a').get = update s (if c then branch else branch').writes := by
  split
  · exact h
  · exact h'

/-- **One parameter, as an update of the fields**, branch by branch. -/
theorem get_sgrApplyParam (codes : SgrCodes) (a : FepSgrAttr) (param : Int) :
    (sgrApplyParam codes a param).get = update a.get (sgrBranch codes param).writes := by
  unfold sgrApplyParam sgrBranch
  refine get_ite get_fepEmptyAttr ?_
  refine get_ite (get_setBits a fepAttrTypeUnderline) ?_
  refine get_ite (get_clearBits a fepAttrTypeUnderline) ?_
  refine get_ite (get_setBits a fepAttrTypeStandout) ?_
  refine get_ite (get_clearBits a fepAttrTypeStandout) ?_
  refine get_ite (get_setBits a fepAttrTypeBold) ?_
  refine get_ite (get_setBits a fepAttrTypeBlink) ?_
  refine get_ite (get_setColors a (some 0) (some 0)) ?_
  refine get_ite (get_setColors a (some 0) none) ?_
  refine get_ite (get_setColors a none (some 0)) ?_
  refine get_ite (get_clearBits a fepAttrTypeBold) ?_
  refine get_ite (get_clearBits a fepAttrTypeBlink) ?_
  refine get_ite (get_setColors a (some param) none) ?_
  exact get_ite (get_setColors a none (some (param - 10))) rfl

/-- What the parameters of a sequence write, in turn. -/
def sgrWrites (p : Platform) (codes : SgrCodes) (s : ControlSequence) :
    List (SgrField → Option Int) :=
  (paramValues p (sgrParams s)).map fun param => (sgrBranch codes param).writes

/-- **The attributes that a sequence sets**: in every field the last value written, or 0. -/
theorem get_sgrAttr (p : Platform) (codes : SgrCodes) (s : ControlSequence) (f : SgrField) :
    (sgrAttr p codes s).get f = (lastWrite (sgrWrites p codes s) f).getD 0 := by
  have hfold : ∀ (params : List Int) (a : FepSgrAttr),
      (params.foldl (sgrApplyParam codes) a).get =
        (params.map fun param => (sgrBranch codes param).writes).foldl update a.get := by
    intro params
    induction params with
    | nil => exact fun a => rfl
    | cons param params ih =>
      intro a
      rw [List.foldl_cons, ih, List.map_cons, List.foldl_cons, get_sgrApplyParam]
  rw [sgrAttr, hfold, get_fepEmptyAttr]
  exact foldl_update _ _ f

/-! ## Sequences of decimal parameters -/

/-- A decimal parameter below `2 ^ 31`. -/
structure DecParam where
  digits : List UInt8
  ne_nil : digits ≠ []
  digits_ok : ∀ b ∈ digits, isDigit b = true
  value_lt : digitsValue digits < 2 ^ 31

theorem isParam_of_mem_strjoinv (params : List DecParam) :
    ∀ b ∈ strjoinv [0x3B] (params.map (·.digits)), isParam b = true := by
  intro b hb
  rcases mem_of_mem_strjoinv hb with hb | ⟨token, htoken, hb⟩
  · rw [List.mem_singleton.mp hb]
    decide
  · obtain ⟨param, -, rfl⟩ := List.mem_map.mp htoken
    exact isParam_of_isDigit (param.digits_ok b hb)

/-- `ESC [ p1 ; ... ; pn m`. -/
def sgrSequence (params : List DecParam) : ControlSequence :=
  sgrOf (strjoinv [0x3B] (params.map (·.digits))) (isParam_of_mem_strjoinv params)

theorem sgrParams_sgrSequence (params : List DecParam) :
    sgrParams (sgrSequence params) = params.map (·.digits) := by
  refine strsplit_strjoinv ?_
  intro token htoken
  obtain ⟨param, -, rfl⟩ := List.mem_map.mp htoken
  refine ⟨param.ne_nil, fun hmem => ?_⟩
  exact absurd (param.digits_ok _ hmem) (by decide)

theorem sgrPasses_sgrSequence (p : Platform) (params : List DecParam) :
    SgrPasses p (sgrSequence params) := by
  rw [sgrPasses_iff, DigitParams, sgrParams_sgrSequence]
  intro token htoken
  obtain ⟨param, -, rfl⟩ := List.mem_map.mp htoken
  have hge := p.ulongMax_ge
  have hlt := param.value_lt
  exact ⟨param.digits_ok, by omega⟩

/-- The parameters stand for the numbers that they are written as. -/
theorem paramValues_sgrSequence (p : Platform) (params : List DecParam) :
    paramValues p (sgrParams (sgrSequence params)) =
      params.map fun param => (digitsValue param.digits : Int) := by
  rw [sgrParams_sgrSequence, paramValues, List.map_map]
  refine List.map_congr_left fun param _ => ?_
  have hge := p.ulongMax_ge
  have hlt := param.value_lt
  have hvalue := value_strtoul (p := p) param.digits_ok (by omega)
  show (p.strtoul param.digits).toInt = digitsValue param.digits
  -- below 2 ^ 31 the assignment to an `int` keeps the value
  have hnat : (BitVec.ofNat 32 (digitsValue param.digits)).toNat = digitsValue param.digits :=
    Nat.mod_eq_of_lt (by omega)
  rw [Strtoul.toInt, hvalue, BitVec.toInt_eq_toNat_of_lt (by omega), hnat]

theorem sgrWrites_append (p : Platform) (codes : SgrCodes) (ps qs : List DecParam) :
    sgrWrites p codes (sgrSequence (ps ++ qs)) =
      sgrWrites p codes (sgrSequence ps) ++ sgrWrites p codes (sgrSequence qs) := by
  simp only [sgrWrites, sgrParams_sgrSequence, paramValues, List.map_append]

/-- Every field that the parameters `ps` leave with a value other than 0 is written by `qs`. -/
def Overwrites (p : Platform) (codes : SgrCodes) (ps qs : List DecParam) : Prop :=
  ∀ f, lastWrite (sgrWrites p codes (sgrSequence ps)) f = none ∨
    lastWrite (sgrWrites p codes (sgrSequence ps)) f = some 0 ∨
    lastWrite (sgrWrites p codes (sgrSequence qs)) f ≠ none

theorem sgrAttr_append_eq_iff (p : Platform) (codes : SgrCodes) (ps qs : List DecParam) :
    sgrAttr p codes (sgrSequence qs) = sgrAttr p codes (sgrSequence (ps ++ qs)) ↔
      Overwrites p codes ps qs := by
  rw [← FepSgrAttr.get_inj, funext_iff]
  refine forall_congr' fun f => ?_
  rw [get_sgrAttr, get_sgrAttr, sgrWrites_append, lastWrite_append]
  cases lastWrite (sgrWrites p codes (sgrSequence qs)) f with
  | none =>
    cases lastWrite (sgrWrites p codes (sgrSequence ps)) f with
    | none => simp
    | some v => simp [eq_comm]
  | some v => simp

/-! ## Attributes of the terminal -/

inductive SgrAttribute where
  | underline
  | standout
  | bold
  | blink
  | foreground
  | background
  deriving DecidableEq, Repr

/-- The field that holds an attribute: the bits are those of `FepSgrAttrType`. -/
def SgrAttribute.field : SgrAttribute → SgrField
  | .underline => .bit 0
  | .standout => .bit 1
  | .bold => .bit 2
  | .blink => .bit 3
  | .foreground => .foreground
  | .background => .background

/-- The attributes a branch is about. -/
def SgrBranch.touches : SgrBranch → SgrAttribute → Bool
  | .reset, _ => true
  | .enterUnderline, .underline | .exitUnderline, .underline => true
  | .enterStandout, .standout | .exitStandout, .standout => true
  | .enterBold, .bold | .normalIntensity, .bold => true
  | .enterBlink, .blink | .blinkOff, .blink => true
  | .origPair, .foreground | .origFore, .foreground | .foreground _, .foreground => true
  | .origPair, .background | .origBack, .background | .background _, .background => true
  | _, _ => false

/-- A sequence touches the attributes its parameters are about; without parameters it resets all. -/
def Touches (p : Platform) (codes : SgrCodes) (s : ControlSequence) (a : SgrAttribute) : Prop :=
  sgrParams s = [] ∨
    ∃ param ∈ paramValues p (sgrParams s), (sgrBranch codes param).touches a = true

/-- The value that a sequence leaves of an attribute it does not touch. The masks of bold and blink
have the bits of other attributes. -/
def leftover (p : Platform) (codes : SgrCodes) (s : ControlSequence) : SgrAttribute → Int
  | .underline => (lastWrite (sgrWrites p codes s) (.bit 0)).getD 0
  | .standout => (lastWrite (sgrWrites p codes s) (.bit 1)).getD 0
  | .bold => (lastWrite (sgrWrites p codes s) (.bit 2)).getD 0
  | .blink | .foreground | .background => 0

/-- No mask has the bit of blink, and colours are written as such only. -/
theorem writes_eq_none {branch : SgrBranch} {a : SgrAttribute}
    (ha : a = .blink ∨ a = .foreground ∨ a = .background) (h : branch.touches a = false) :
    branch.writes a.field = none := by
  rcases ha with rfl | rfl | rfl
  · cases branch <;> first | rfl | exact absurd h (by decide)
  · cases branch <;> first | rfl | exact absurd h (by simp [SgrBranch.touches])
  · cases branch <;> first | rfl | exact absurd h (by simp [SgrBranch.touches])

theorem get_sgrAttr_of_not_touches {p : Platform} {codes : SgrCodes} {s : ControlSequence}
    {a : SgrAttribute} (h : ¬ Touches p codes s a) :
    (sgrAttr p codes s).get a.field = leftover p codes s a := by
  rw [get_sgrAttr]
  have hnone (ha : a = .blink ∨ a = .foreground ∨ a = .background) :
      lastWrite (sgrWrites p codes s) a.field = none := by
    refine lastWrite_eq_none_iff.mpr fun w hw => ?_
    obtain ⟨param, hparam, rfl⟩ := List.mem_map.mp hw
    refine writes_eq_none ha ?_
    rw [← Bool.not_eq_true]
    exact fun htouch => h (Or.inr ⟨param, hparam, htouch⟩)
  cases a with
  | underline => rfl
  | standout => rfl
  | bold => rfl
  | blink => rw [hnone (by simp)]; rfl
  | foreground => rw [hnone (by simp)]; rfl
  | background => rw [hnone (by simp)]; rfl

/-! ## Chunks -/

/-- The sequences of a chunk that passes the assertion are read. -/
theorem exists_outputStringFromPty_chunk {p : Platform} (fep : Fep loc) {bytes : List UInt8}
    (h : ∀ o ∈ occurrences sgrFinal 0 bytes, SgrPasses p o.2) :
    ∃ fep', outputStringFromPty p fep bytes bytes.length = .ok fep' ∧
      fep'.attrPty = lastAttr p fep.sgrCodes fep.attrPty (occurrences sgrFinal 0 bytes) := by
  obtain ⟨fep', hok⟩ := exists_childStep_chunk p fep bytes h
  exact ⟨fep', hok, (outputStringFromPty_chunk hok).2.1⟩

/-- A sequence, a text without ESC and another sequence. -/
def twoSequences (ps : List DecParam) (t : List UInt8) (qs : List DecParam) : List UInt8 :=
  (sgrSequence ps).bytes ++ (t ++ (sgrSequence qs).bytes)

theorem final_sgrSequence (ps : List DecParam) : (sgrSequence ps).final = sgrFinal := rfl

theorem occurrences_sgrSequence (i : Nat) (ps : List DecParam) :
    occurrences sgrFinal i (sgrSequence ps).bytes = [(i, sgrSequence ps)] := by
  have hocc := occurrences_of_prefix (final_sgrSequence ps) [] i
  rwa [List.append_nil, occurrences_nil] at hocc

theorem occurrences_twoSequences {t : List UInt8} (ht : ∀ b ∈ t, b ≠ escape)
    (ps qs : List DecParam) :
    ∃ i, occurrences sgrFinal 0 (twoSequences ps t qs) =
      [(0, sgrSequence ps), (i, sgrSequence qs)] := by
  rw [twoSequences, occurrences_of_prefix (final_sgrSequence ps), occurrences_append_of_ne sgrFinal ht,
    occurrences_sgrSequence]
  exact ⟨_, rfl⟩

/-- **When SGR sequences accumulate.** A sequence, a text without ESC and another sequence leave the
same attributes as one sequence with the parameters of both exactly when the second one overwrites all
that the first one sets. An attribute that the only sequence of a chunk does not touch stays exactly
when it had the value that is left over. -/
theorem accumulate_iff (p : Platform) (fep : Fep loc) :
    (∀ (ps qs : List DecParam) (t : List UInt8), (∀ b ∈ t, b ≠ escape) → ∃ fep₁ fep₂,
      outputStringFromPty p fep (twoSequences ps t qs) (twoSequences ps t qs).length = .ok fep₁ ∧
      outputStringFromPty p fep (sgrSequence (ps ++ qs)).bytes (sgrSequence (ps ++ qs)).bytes.length
        = .ok fep₂ ∧
      (fep₁.attrPty = fep₂.attrPty ↔ Overwrites p fep.sgrCodes ps qs)) ∧
    (∀ (chunk : List UInt8) (i : Nat) (s : ControlSequence) (fep' : Fep loc) (a : SgrAttribute),
      occurrences sgrFinal 0 chunk = [(i, s)] →
      outputStringFromPty p fep chunk chunk.length = .ok fep' → ¬ Touches p fep.sgrCodes s a →
      (fep'.attrPty.get a.field = fep.attrPty.get a.field ↔
        fep.attrPty.get a.field = leftover p fep.sgrCodes s a)) := by
  constructor
  · intro ps qs t ht
    obtain ⟨i, hocc₁⟩ := occurrences_twoSequences ht ps qs
    have hocc₂ := occurrences_sgrSequence 0 (ps ++ qs)
    obtain ⟨fep₁, hok₁, hattr₁⟩ := exists_outputStringFromPty_chunk fep
      (show ∀ o ∈ occurrences sgrFinal 0 (twoSequences ps t qs), SgrPasses p o.2 by
        simp [hocc₁, sgrPasses_sgrSequence])
    obtain ⟨fep₂, hok₂, hattr₂⟩ := exists_outputStringFromPty_chunk fep
      (show ∀ o ∈ occurrences sgrFinal 0 (sgrSequence (ps ++ qs)).bytes, SgrPasses p o.2 by
        simp [hocc₂, sgrPasses_sgrSequence])
    refine ⟨fep₁, fep₂, hok₁, hok₂, ?_⟩
    rw [hattr₁, hattr₂, hocc₁, hocc₂]
    exact sgrAttr_append_eq_iff p fep.sgrCodes ps qs
  · intro chunk i s fep' a hocc hok htouch
    have hattr := (outputStringFromPty_chunk hok).2.1
    rw [hocc] at hattr
    rw [show fep'.attrPty = sgrAttr p fep.sgrCodes s from hattr, get_sgrAttr_of_not_touches htouch,
      eq_comm]

/-- The codes of an xterm. -/
def xtermCodes : SgrCodes
  | .enterUnderline => 4
  | .exitUnderline => 24
  | .enterStandout => 7
  | .exitStandout => 27
  | .enterBold => 1
  | .enterBlink => 5
  | .origPair => -1
  | .origFore => 39
  | .origBack => 49

def xtermFep : Fep .c := { Fep.new .c with sgrCodes := xtermCodes }

/-- Red. -/
def param31 : DecParam := ⟨[0x33, 0x31], by simp, List.all_eq_true.mp rfl, by decide⟩

/-- Bold. -/
def param1 : DecParam := ⟨[0x31], by simp, List.all_eq_true.mp rfl, by decide⟩

/-- Red and then bold leaves bold only. -/
theorem not_accumulate_redBold :
    ((outputStringFromPty .x86_64 xtermFep (twoSequences [param31] [] [param1])
      (twoSequences [param31] [] [param1]).length).map Fep.attrPty = .ok ⟨5, 0, 0⟩) ∧
    ((outputStringFromPty .x86_64 xtermFep (sgrSequence [param31, param1]).bytes
      (sgrSequence [param31, param1]).bytes.length).map Fep.attrPty = .ok ⟨5, 31, 0⟩) := by
  constructor
  · decide +kernel
  · decide +kernel

theorem accumulate_iff_redBold :
    (∃ fep₁ fep₂,
      outputStringFromPty .x86_64 xtermFep (twoSequences [param31] [0x61] [param1])
        (twoSequences [param31] [0x61] [param1]).length = .ok fep₁ ∧
      outputStringFromPty .x86_64 xtermFep (sgrSequence [param31, param1]).bytes
        (sgrSequence [param31, param1]).bytes.length = .ok fep₂ ∧
      (fep₁.attrPty = fep₂.attrPty ↔ Overwrites .x86_64 xtermCodes [param31] [param1])) ∧
    (∃ fep', outputStringFromPty .x86_64 xtermFep setRed setRed.length = .ok fep' ∧
      (fep'.attrPty.get (.bit 3) = 0 ↔ (0 : Int) = 0)) := by
  refine ⟨(accumulate_iff .x86_64 xtermFep).1 [param31] [param1] [0x61] (by simp [escape]), ?_⟩
  have hocc : occurrences sgrFinal 0 setRed = [(0, sgrSequence [param31])] :=
    occurrences_sgrSequence 0 [param31]
  obtain ⟨fep', hok, -⟩ := exists_outputStringFromPty_chunk xtermFep
    (show ∀ o ∈ occurrences sgrFinal 0 setRed, SgrPasses .x86_64 o.2 by
      simp [hocc, sgrPasses_sgrSequence])
  refine ⟨fep', hok, (accumulate_iff .x86_64 xtermFep).2 setRed 0 (sgrSequence [param31]) fep' .blink
    hocc hok ?_⟩
  rintro (hnil | ⟨param, hparam, htouch⟩)
  · rw [sgrParams_sgrSequence] at hnil
    exact absurd hnil (by simp)
  · rw [sgrParams_sgrSequence] at hparam
    obtain rfl : param = 31 := List.mem_singleton.mp hparam
    exact absurd htouch (by decide)

end LibFep
