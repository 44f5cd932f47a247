import Mathlib.Logic.Function.Basic
import LibFep.Term.Rendition

/-!
# LibFep — the codes of the terminal

`_fep_get_sgr_codes` of `fep/sgr.c`, which reads the table of SGR codes off the terminfo strings, and
what `_fep_output_set_attributes` makes of the table. An entry is a code, 0 for a string that is missing or
has no code, and -1 for a string with another number of parameters.

* **`getSgrCodes_apply`** — each entry of the table is read off one string.
* **`sgrCode_contained_iff`** — the strings whose entry is a code that they contain, or 0.
* **`outputSetAttributes_wellFormed_iff`** — the attributes that are sent as an SGR sequence of such codes.
-/

namespace LibFep

open Lib

variable {loc : Locale}

/-! ## `_fep_get_sgr_codes` -/

/-- The terminfo strings that the table is read off. -/
inductive SgrCapability where
  | enterUnderlineMode
  | exitUnderlineMode
  | enterStandoutMode
  | exitStandoutMode
  | enterBoldMode
  | enterBlinkMode
  | origPair
  deriving DecidableEq, Repr

/-- `_fep_cap_get_string`, `none` for `NULL`. -/
abbrev SgrStrings := SgrCapability → Option (List UInt8)

/-- A row of `name_code`. -/
structure NameCode where
  name : SgrCapability
  nArgs : Nat
  index : Fin nArgs
  code : FepSgrParamIndex

def nameCode : List NameCode :=
  [⟨.enterUnderlineMode, 1, 0, .enterUnderline⟩, ⟨.exitUnderlineMode, 1, 0, .exitUnderline⟩,
    ⟨.enterStandoutMode, 1, 0, .enterStandout⟩, ⟨.exitStandoutMode, 1, 0, .exitStandout⟩,
    ⟨.enterBoldMode, 1, 0, .enterBold⟩, ⟨.enterBlinkMode, 1, 0, .enterBlink⟩,
    ⟨.origPair, 1, 0, .origPair⟩, ⟨.origPair, 2, 0, .origFore⟩, ⟨.origPair, 2, 1, .origBack⟩]

/-- What a row stores in the table for its string, if anything. -/
def sgrCodeOf (p : Platform) (entry : NameCode) (str : List UInt8) : Option Int :=
  match csiParse str 0x5B with
  | none => none
  | some (csi, _) =>
    if csi.final = sgrFinal then
      let params := strsplit csi.params [0x3B] semicolon_ne_nil
      if h : params.length = entry.nArgs then
        let code := p.strtoul (params.get (entry.index.cast h.symm))
        if code.Passes then some code.toInt else none
      else some (-1)
    else none

def getSgrCodes (p : Platform) (strings : SgrStrings) (codes : SgrCodes) : SgrCodes :=
  nameCode.foldl (fun codes entry =>
    match (strings entry.name).bind (sgrCodeOf p entry) with
    | none => codes
    | some code => Function.update codes entry.code code) codes

/-- A place that no row stores in. -/
theorem foldl_store_of_not_mem (f : NameCode → Option Int) (rows : List NameCode) (codes : SgrCodes)
    {i : FepSgrParamIndex} (hi : i ∉ rows.map (·.code)) :
    rows.foldl (fun codes entry =>
      match f entry with
      | none => codes
      | some code => Function.update codes entry.code code) codes i = codes i := by
  induction rows generalizing codes with
  | nil => rfl
  | cons row rows ih =>
    obtain ⟨hne, hrest⟩ := not_or.mp (mt List.mem_cons.mpr hi)
    rw [List.foldl_cons, ih _ hrest]
    cases f row with
    | none => rfl
    | some code => exact Function.update_of_ne hne _ _

/-- Rows with different codes store in different places. -/
theorem foldl_store (f : NameCode → Option Int) (rows : List NameCode)
    (hnodup : (rows.map (·.code)).Nodup) (codes : SgrCodes) {entry : NameCode} (h : entry ∈ rows) :
    rows.foldl (fun codes entry =>
      match f entry with
      | none => codes
      | some code => Function.update codes entry.code code) codes entry.code =
      (f entry).getD (codes entry.code) := by
  induction rows generalizing codes with
  | nil => exact absurd h (by simp)
  | cons row rows ih =>
    obtain ⟨hrow, hrest⟩ := List.nodup_cons.mp hnodup
    rw [List.foldl_cons]
    rcases List.mem_cons.mp h with rfl | hmem
    · rw [foldl_store_of_not_mem f rows _ hrow]
      cases f entry with
      | none => rfl
      | some code => exact Function.update_self _ _ _
    · rw [ih hrest _ hmem]
      have hne : entry.code ≠ row.code := by
        intro heq
        exact hrow (List.mem_map.mpr ⟨entry, hmem, heq⟩)
      cases f row with
      | none => rfl
      | some code => exact congrArg (f entry).getD (Function.update_of_ne hne _ _)

/-- **Each entry of the table is read off the string of its row**, or else left as it was. -/
theorem getSgrCodes_apply (p : Platform) (strings : SgrStrings) (codes : SgrCodes)
    {entry : NameCode} (h : entry ∈ nameCode) :
    getSgrCodes p strings codes entry.code =
      ((strings entry.name).bind (sgrCodeOf p entry)).getD (codes entry.code) :=
  foldl_store (fun entry => (strings entry.name).bind (sgrCodeOf p entry)) nameCode (by decide)
    codes h

/-- Every place of the table has a row. -/
theorem exists_nameCode (i : FepSgrParamIndex) : ∃ entry ∈ nameCode, entry.code = i := by
  cases i <;> simp [nameCode]

/-- The codes that set an attribute are read off strings with one parameter. -/
theorem nArgs_of_enterBit {entry : NameCode} (h : entry ∈ nameCode)
    (henter : enterBit entry.code ≠ 0) : entry.nArgs = 1 := by
  simp only [nameCode, List.mem_cons, List.not_mem_nil, or_false] at h
  rcases h with rfl | rfl | rfl | rfl | rfl | rfl | rfl | rfl | rfl
  all_goals first | rfl | exact absurd rfl henter

/-! ## The codes that a string contains -/

/-- The string is an SGR sequence, and the number is one of its parameters. -/
def HasCode (str : List UInt8) (value : Int) : Prop :=
  ∃ csi n, csiParse str 0x5B = some (csi, n) ∧ csi.final = sgrFinal ∧
    ∃ param ∈ strsplit csi.params [0x3B] semicolon_ne_nil, (∀ b ∈ param, isDigit b = true) ∧
      (digitsValue param : Int) = value

/-- If the string is an SGR sequence, it has one parameter, and where this is a number that `strtoul`
reads, an `int` holds the number or 0 is left of it. -/
def OneCode (p : Platform) (str : List UInt8) : Prop :=
  ∀ csi n, csiParse str 0x5B = some (csi, n) → csi.final = sgrFinal →
    ∃ param, strsplit csi.params [0x3B] semicolon_ne_nil = [param] ∧
      ((p.strtoul param).Passes →
        digitsValue param < 2 ^ 31 ∨ digitsValue param % 2 ^ 32 = 0)

theorem toInt_strtoul {p : Platform} {param : List UInt8} (hall : ∀ b ∈ param, isDigit b = true)
    (hle : digitsValue param ≤ p.ulongMax) :
    (p.strtoul param).toInt = (BitVec.ofNat 32 (digitsValue param)).toInt := by
  rw [Strtoul.toInt, value_strtoul hall hle]

/-- A number is stored as it is, or as 0, unless an `int` is too small. -/
theorem toInt_eq_self_or_zero_iff {n : Nat} :
    ((BitVec.ofNat 32 n).toInt = n ∨ (BitVec.ofNat 32 n).toInt = 0) ↔
      n < 2 ^ 31 ∨ n % 2 ^ 32 = 0 := by
  rw [BitVec.toInt_eq_toNat_bmod, BitVec.toNat_ofNat, Int.bmod_def]
  omega

/-- A row with one parameter, for an SGR sequence. -/
theorem sgrCodeOf_of_parse {p : Platform} {entry : NameCode} (hone : entry.nArgs = 1)
    {str : List UInt8} {csi : FepCSI} {n : Nat} (h : csiParse str 0x5B = some (csi, n))
    (hfinal : csi.final = sgrFinal) :
    sgrCodeOf p entry str =
      match strsplit csi.params [0x3B] semicolon_ne_nil with
      | [param] => if (p.strtoul param).Passes then some (p.strtoul param).toInt else none
      | _ => some (-1) := by
  obtain ⟨name, nArgs, index, code⟩ := entry
  obtain rfl : nArgs = 1 := hone
  have hcases (params : List (List UInt8)) :
      (if h : params.length = 1 then
        if (p.strtoul (params.get (index.cast h.symm))).Passes then
          some (p.strtoul (params.get (index.cast h.symm))).toInt
        else none
      else some (-1)) =
      match params with
      | [param] => if (p.strtoul param).Passes then some (p.strtoul param).toInt else none
      | _ => some (-1) := by
    rcases params with _ | ⟨param, _ | ⟨second, rest⟩⟩
    · rfl
    · rw [dif_pos (show [param].length = 1 from rfl), Fin.fin_one_eq_zero index]
      rfl
    · rw [dif_neg (by simp)]
  simp only [sgrCodeOf, h, if_pos hfinal]
  exact hcases _

theorem sgrCodeOf_of_not_sgr {p : Platform} {entry : NameCode} {str : List UInt8}
    (h : ¬ ∃ csi n, csiParse str 0x5B = some (csi, n) ∧ csi.final = sgrFinal) :
    sgrCodeOf p entry str = none := by
  unfold sgrCodeOf
  cases hparse : csiParse str 0x5B with
  | none => rfl
  | some r => exact if_neg fun hfinal => h ⟨r.1, r.2, hparse, hfinal⟩

/-- The codes of a string that is an SGR sequence. -/
theorem hasCode_iff_of_parse {str : List UInt8} {csi : FepCSI} {n : Nat}
    (h : csiParse str 0x5B = some (csi, n)) (hfinal : csi.final = sgrFinal) {value : Int} :
    HasCode str value ↔
      ∃ param ∈ strsplit csi.params [0x3B] semicolon_ne_nil, (∀ b ∈ param, isDigit b = true) ∧
        (digitsValue param : Int) = value := by
  constructor
  · rintro ⟨csi', n', h', -, hparam⟩
    obtain ⟨rfl, -⟩ := Prod.mk.inj (Option.some.inj (h.symm.trans h'))
    exact hparam
  · exact fun hparam => ⟨csi, n, h, hfinal, hparam⟩

theorem oneCode_iff_of_parse {p : Platform} {str : List UInt8} {csi : FepCSI} {n : Nat}
    (h : csiParse str 0x5B = some (csi, n)) (hfinal : csi.final = sgrFinal) :
    OneCode p str ↔ ∃ param, strsplit csi.params [0x3B] semicolon_ne_nil = [param] ∧
      ((p.strtoul param).Passes → digitsValue param < 2 ^ 31 ∨ digitsValue param % 2 ^ 32 = 0) := by
  constructor
  · exact fun hone => hone csi n h hfinal
  · intro hparam csi' n' h' _
    obtain ⟨rfl, -⟩ := Prod.mk.inj (Option.some.inj (h.symm.trans h'))
    exact hparam

/-- **The entry of a string is a code that the string contains, or 0**, exactly if the string has one code.
The cases are those of the split: one parameter, or another number of them. -/
theorem sgrCode_contained_iff {p : Platform} {entry : NameCode} (hone : entry.nArgs = 1)
    (str : List UInt8) :
    ((sgrCodeOf p entry str).getD 0 ≠ 0 → HasCode str ((sgrCodeOf p entry str).getD 0)) ↔
      OneCode p str := by
  by_cases hsgr : ∃ csi n, csiParse str 0x5B = some (csi, n) ∧ csi.final = sgrFinal
  · obtain ⟨csi, n, hparse, hfinal⟩ := hsgr
    have hparams : ∀ b ∈ csi.params, isParam b = true := (csiParse_eq_some_iff.mp hparse).1.params
    rw [hasCode_iff_of_parse hparse hfinal, oneCode_iff_of_parse hparse hfinal,
      sgrCodeOf_of_parse hone hparse hfinal]
    have htokens : ∀ param ∈ strsplit csi.params [0x3B] semicolon_ne_nil, (p.strtoul param).Passes ↔
        (∀ b ∈ param, isDigit b = true) ∧ digitsValue param ≤ p.ulongMax :=
      fun param hmem => passes_token_iff hparams hmem
    revert htokens
    generalize strsplit csi.params [0x3B] semicolon_ne_nil = params
    intro htokens
    -- the entry of another number of parameters is -1, which no digits stand for
    have hother : ¬ ∃ param ∈ params, (∀ b ∈ param, isDigit b = true) ∧
        (digitsValue param : Int) = -1 := by
      rintro ⟨param, -, -, hvalue⟩
      omega
    rcases params with _ | ⟨param, _ | ⟨second, rest⟩⟩
    · simp
    · have hpass := htokens param List.mem_cons_self
      by_cases hp : (p.strtoul param).Passes
      · obtain ⟨hall, hle⟩ := hpass.mp hp
        simp only [if_pos hp, Option.getD_some, toInt_strtoul hall hle]
        have hiff := @toInt_eq_self_or_zero_iff (digitsValue param)
        simp only [List.mem_singleton, exists_eq_left, List.cons.injEq, and_true, exists_eq_left',
          hp, true_implies, ← hiff]
        rw [and_iff_right hall, or_comm, or_iff_not_imp_left]
        exact imp_congr_right fun _ => eq_comm
      · simp [hp]
    · simp only [Option.getD_some]
      refine iff_of_false (fun h => hother (h (by decide))) ?_
      rintro ⟨param', heq, -⟩
      exact absurd heq (by simp)
  · rw [sgrCodeOf_of_not_sgr hsgr]
    refine iff_of_true (fun h => absurd rfl h) ?_
    intro csi n hparse hfinal
    exact absurd ⟨csi, n, hparse, hfinal⟩ hsgr

/-! ## The sequence that is sent -/

/-- Colours of a terminal, or none. -/
structure ValidColours (attr : FepSgrAttr) : Prop where
  foreground : attr.foreground = 0 ∨ IsForeground attr.foreground
  background : attr.background = 0 ∨ IsForeground attr.background

/-- The server after `_fep_get_sgr_codes`, which finds the table cleared. -/
def loadSgrCodes (p : Platform) (strings : SgrStrings) (fep : Fep loc) : Fep loc :=
  { fep with sgrCodes := getSgrCodes p strings fun _ => 0 }

/-- `ESC [ d;...;d m`, where each parameter is a number in decimal. -/
def IsSgr (bytes : List UInt8) : Prop :=
  ∃ params, bytes = escape :: 0x5B :: (strjoinv [0x3B] params ++ [sgrFinal]) ∧
    ∀ param ∈ params, param ≠ [] ∧ ∀ b ∈ param, isDigit b = true

/-- What is sent for an attribute is an SGR sequence, and every code in it that sets an attribute is one of
the terminal's string for it. -/
structure SendsSgr (p : Platform) (strings : SgrStrings) (fep : Fep loc) (attr : FepSgrAttr) :
    Prop where
  sequence : ∃ bytes, (outputSetAttributes (loadSgrCodes p strings fep) attr).output =
    fep.output ++ [.sgr bytes] ∧ IsSgr bytes
  contained : ∀ entry ∈ nameCode, enterBit entry.code ≠ 0 → attr.attr &&& enterBit entry.code ≠ 0 →
    (loadSgrCodes p strings fep).sgrCodes entry.code ≠ 0 →
    ∃ str, strings entry.name = some str ∧
      HasCode str ((loadSgrCodes p strings fep).sgrCodes entry.code)

/-- The string of each attribute that is set has one code. -/
def OneCodeEach (p : Platform) (strings : SgrStrings) (attr : FepSgrAttr) : Prop :=
  ∀ entry ∈ nameCode, enterBit entry.code ≠ 0 → attr.attr &&& enterBit entry.code ≠ 0 →
    ∀ str, strings entry.name = some str → OneCode p str

theorem formatInt_ne_nil (n : Nat) : formatInt n ≠ [] := by
  rw [formatInt_natCast]
  simp [Nat.toDigits_ne_nil]

/-- The parameters are numbers, if the codes are not negative. -/
theorem mem_sgrParamsFromAttr {codes : SgrCodes} {attr : FepSgrAttr} (hattr : ValidColours attr)
    (hcodes : ∀ i, enterBit i ≠ 0 → attr.attr &&& enterBit i ≠ 0 → 0 ≤ codes i)
    {param : List UInt8} (h : param ∈ sgrParamsFromAttr attr codes) :
    ∃ n : Nat, param = formatInt n := by
  have hnat {x : Int} (hx : 0 ≤ x) : ∃ n : Nat, formatInt x = formatInt n :=
    ⟨x.toNat, by rw [Int.toNat_of_nonneg hx]⟩
  have hbit (i : FepSgrParamIndex) (hi : enterBit i ≠ 0)
      (hmem : param ∈ if attr.attr &&& enterBit i ≠ 0 ∧ codes i ≠ 0 then [formatInt (codes i)] else []) :
      ∃ n : Nat, param = formatInt n := by
    split at hmem
    · next hset =>
      rw [List.mem_singleton.mp hmem]
      exact hnat (hcodes i hi hset.1)
    · exact absurd hmem (by simp)
  have hcolour (colour shift : Int) (hshift : 0 ≤ shift) (hvalid : colour = 0 ∨ IsForeground colour)
      (hmem : param ∈ if colour ≠ 0 then [formatInt (colour + shift)] else []) :
      ∃ n : Nat, param = formatInt n := by
    split at hmem
    · rw [List.mem_singleton.mp hmem]
      apply hnat
      unfold IsForeground at hvalid
      omega
    · exact absurd hmem (by simp)
  unfold sgrParamsFromAttr at h
  split at h
  · exact absurd h (by simp)
  · simp only [List.mem_append] at h
    rcases h with ((((h | h) | h) | h) | h) | h
    · exact hbit .enterUnderline (by decide) h
    · exact hbit .enterStandout (by decide) h
    · exact hbit .enterBold (by decide) h
    · exact hbit .enterBlink (by decide) h
    · refine hcolour attr.foreground 0 (Int.le_refl 0) hattr.foreground ?_
      rw [Int.add_zero]
      exact h
    · exact hcolour attr.background 10 (by decide) hattr.background h

/-- **What is sent for an attribute is an SGR sequence with codes of the terminal** exactly if the string of
each attribute that is set has one code. -/
theorem outputSetAttributes_wellFormed_iff (p : Platform) (strings : SgrStrings) (fep : Fep loc)
    {attr : FepSgrAttr} (hattr : ValidColours attr) :
    SendsSgr p strings fep attr ↔ OneCodeEach p strings attr := by
  have hentry {entry : NameCode} (hmem : entry ∈ nameCode) :
      (loadSgrCodes p strings fep).sgrCodes entry.code =
        ((strings entry.name).bind (sgrCodeOf p entry)).getD 0 :=
    getSgrCodes_apply p strings _ hmem
  -- the entry of a string, for a string that is there
  have hcontained {entry : NameCode} (hmem : entry ∈ nameCode) (henter : enterBit entry.code ≠ 0) :
      ((loadSgrCodes p strings fep).sgrCodes entry.code ≠ 0 → ∃ str, strings entry.name = some str ∧
        HasCode str ((loadSgrCodes p strings fep).sgrCodes entry.code)) ↔
      ∀ str, strings entry.name = some str → OneCode p str := by
    rw [hentry hmem]
    cases hstr : strings entry.name with
    | none => simp
    | some str =>
      have hiff := @sgrCode_contained_iff p entry (nArgs_of_enterBit hmem henter) str
      simp only [Option.bind_some, Option.some.injEq, forall_eq', exists_eq_left']
      exact hiff
  constructor
  · intro h entry hmem henter hset
    exact (hcontained hmem henter).mp (h.contained entry hmem henter hset)
  · intro h
    have hcodes : ∀ entry ∈ nameCode, enterBit entry.code ≠ 0 →
        attr.attr &&& enterBit entry.code ≠ 0 →
        (loadSgrCodes p strings fep).sgrCodes entry.code ≠ 0 →
        ∃ str, strings entry.name = some str ∧
          HasCode str ((loadSgrCodes p strings fep).sgrCodes entry.code) :=
      fun entry hmem henter hset => (hcontained hmem henter).mpr (h entry hmem henter hset)
    refine ⟨⟨_, rfl, sgrParamsFromAttr attr (loadSgrCodes p strings fep).sgrCodes, ?_, ?_⟩, hcodes⟩
    · simp [csiFormat, sgrFinal]
    · intro param hparam
      obtain ⟨n, rfl⟩ := mem_sgrParamsFromAttr hattr (fun i henter hset => by
        obtain ⟨entry, hmem, rfl⟩ := exists_nameCode i
        by_cases hzero : (loadSgrCodes p strings fep).sgrCodes entry.code = 0
        · exact Int.le_of_eq hzero.symm
        · obtain ⟨str, -, csi, k, -, -, param', -, -, hvalue⟩ := hcodes entry hmem henter hset hzero
          exact hvalue ▸ Int.natCast_nonneg _) hparam
      exact ⟨formatInt_ne_nil n, fun b hb => isDigit_of_mem_formatInt hb⟩

/-- A terminal that underlines with `ESC [ 4 m`. -/
def underlineStrings : SgrStrings
  | .enterUnderlineMode => some [escape, 0x5B, 0x34, 0x6D]
  | _ => none

theorem outputSetAttributes_wellFormed_iff_underline :
    SendsSgr .x86_64 underlineStrings (Fep.new .c) ⟨fepSgrAttrUnderline, 31, 0⟩ ↔
      OneCodeEach .x86_64 underlineStrings ⟨fepSgrAttrUnderline, 31, 0⟩ :=
  outputSetAttributes_wellFormed_iff .x86_64 underlineStrings (Fep.new .c)
    ⟨Or.inr (by decide), Or.inl rfl⟩

/-- A terminal whose standout is `ESC [ 0 ; 7 m`. -/
def standoutStrings : SgrStrings
  | .enterStandoutMode => some [escape, 0x5B, 0x30, 0x3B, 0x37, 0x6D]
  | _ => none

/-- For standout it is sent `ESC [ - 1 m`. -/
theorem not_sendsSgr_standout :
    ¬ ∀ (p : Platform) (strings : SgrStrings) (fep : Fep .c) (attr : FepSgrAttr), ValidColours attr →
      SendsSgr p strings fep attr := by
  intro hall
  have h := hall .x86_64 standoutStrings (Fep.new .c) ⟨fepSgrAttrStandout, 0, 0⟩
    ⟨Or.inl rfl, Or.inl rfl⟩
  have hmem : ⟨.enterStandoutMode, 1, 0, .enterStandout⟩ ∈ nameCode := by simp [nameCode]
  have hsplit : strsplit [0x30, 0x3B, 0x37] [0x3B] semicolon_ne_nil = [[0x30], [0x37]] := by
    rw [show ([0x30, 0x3B, 0x37] : List UInt8) = [0x30] ++ 0x3B :: [0x37] from rfl,
      strsplit_append (by decide), strsplit_of_not_mem (by decide)]
    rfl
  have hcode : (loadSgrCodes .x86_64 standoutStrings (Fep.new .c)).sgrCodes .enterStandout = -1 := by
    have hentry := getSgrCodes_apply .x86_64 standoutStrings (fun _ => 0) hmem
    rw [show standoutStrings .enterStandoutMode = some [escape, 0x5B, 0x30, 0x3B, 0x37, 0x6D] from rfl,
      Option.bind_some, @sgrCodeOf_of_parse .x86_64 ⟨.enterStandoutMode, 1, 0, .enterStandout⟩ rfl
        [escape, 0x5B, 0x30, 0x3B, 0x37, 0x6D] ⟨[0x30, 0x3B, 0x37], [], 0x6D⟩ 6 (by decide) rfl] at hentry
    simp only [hsplit] at hentry
    exact hentry
  obtain ⟨str, -, csi, n, -, -, param, -, -, hvalue⟩ := h.contained _ hmem (by decide) (by decide)
    (by rw [hcode]; decide)
  rw [hcode] at hvalue
  omega

end LibFep
