import LibFep.Text.Locale
import LibFep.Term.Csi
import LibFep.Term.Sgr

/-!
# LibFep — output to the terminal

The part of `Fep` that the output functions of `fep/output.c` use, and these functions but the one that
takes the child's output. The state keeps what they send to the terminal, oldest first: the terminfo
strings by name, so that nothing depends on the terminal. `has_cpr` is left out with the branches it
guards: it is 0 in every run, for `_fep_output_init_screen` sets it to 0 and `fep_run` sets it only
where it is set.

* **`CursorText`** — the text at the cursor as the server keeps it: not empty, and one that
  `str_iconv` converts. A text it does not convert ends the run in `_fep_strtrunc`.
* **`attr_applyAttr`** — after `apply_attr` the attributes in use are those asked for.
* **`drawCursorText_of_converts`** — such a text can be shown again, and clears `ptybuf`.
* **`OverlayFrame`** — no overlay changes the attributes kept for the child.
-/

namespace LibFep

/-! ## State -/

/-- A terminfo string, with the arguments `tparm` gets. -/
inductive Capability where
  | exitAttributeMode
  | saveCursor
  | restoreCursor
  | clrEol
  | cursorAddress (row col : Int)
  | changeScrollRegion (first last : Int)
  | clearScreen
  | cursorInvisible
  | cursorNormal
  deriving DecidableEq, Repr

/-- A piece of output: a terminfo string, an SGR sequence that the server builds itself, or bytes given
to `write`. -/
inductive TtyOutput where
  | putp (capability : Capability)
  | sgr (str : List UInt8)
  | write (bytes : List UInt8)
  deriving DecidableEq, Repr

structure FepPoint where
  row : Int
  col : Int
  deriving DecidableEq, Repr

/-- The fields of `struct winsize` that are used. -/
structure Winsize where
  wsRow : BitVec 16
  wsCol : BitVec 16
  deriving DecidableEq, Repr

structure CursorText (loc : Locale) where
  text : List UInt8
  ne_nil : text ≠ []
  converts : (loc.strIconv text).isSome = true

structure Fep (loc : Locale) where
  /-- What was sent to `tty_out`. -/
  output : List TtyOutput
  ptybuf : List UInt8
  attr : FepSgrAttr
  attrTty : FepSgrAttr
  attrPty : FepSgrAttr
  sgrCodes : SgrCodes
  cursorText : Option (CursorText loc)
  cursor : FepPoint
  cursorSave : FepPoint
  cursorTextAttr : FepAttribute
  statusText : List UInt8
  statusTextAttr : FepAttribute
  winsize : Winsize

/-- The fields as `fep_new` leaves them. -/
def Fep.new (loc : Locale) : Fep loc where
  output := []
  ptybuf := []
  attr := fepEmptyAttr
  attrTty := fepEmptyAttr
  attrPty := fepEmptyAttr
  sgrCodes _ := 0
  cursorText := none
  cursor := ⟨0, 0⟩
  cursorSave := ⟨0, 0⟩
  cursorTextAttr := ⟨0, 0, 0, 0⟩
  statusText := []
  statusTextAttr := ⟨0, 0, 0, 0⟩
  winsize := ⟨0, 0⟩

variable {loc : Locale}

/-! ## Output functions -/

/-- `_fep_putp` of a terminfo string. -/
def putp (fep : Fep loc) (capability : Capability) : Fep loc :=
  { fep with output := fep.output ++ [.putp capability] }

/-- `write (fep->tty_out, bytes)`. -/
def writeTty (fep : Fep loc) (bytes : List UInt8) : Fep loc :=
  { fep with output := fep.output ++ [.write bytes] }

def outputSetAttributes (fep : Fep loc) (attr : FepSgrAttr) : Fep loc :=
  let params := sgrParamsFromAttr attr fep.sgrCodes
  let csi : FepCSI := ⟨strjoinv [0x3B] params, [], 0x6D⟩
  { fep with attr := attr, output := fep.output ++ [.sgr (csiFormat csi)] }

def outputChangeScrollRegion (fep : Fep loc) (first last : Int) : Fep loc :=
  { putp fep (.changeScrollRegion first last) with cursor := ⟨0, 0⟩ }

def applyAttr (fep : Fep loc) (attr : FepSgrAttr) : Fep loc :=
  -- an attribute or a colour is to be cleared: reset to the new value
  if fep.attr.attr &&& ~~~attr.attr &&& fepSgrAttrMask ≠ 0 ∨
      (fep.attr.foreground ≠ 0 ∧ attr.foreground = 0) ∨
      (fep.attr.background ≠ 0 ∧ attr.background = 0) then
    outputSetAttributes (putp fep .exitAttributeMode) attr
  else if fep.attr ≠ attr then outputSetAttributes fep attr
  else fep

def outputCursorAddress (fep : Fep loc) (row col : Int) : Fep loc :=
  { putp fep (.cursorAddress row col) with cursor := ⟨row, col⟩ }

def outputSaveCursor (fep : Fep loc) : Fep loc :=
  { putp fep .saveCursor with cursorSave := fep.cursor }

def outputRestoreCursor (fep : Fep loc) : Fep loc :=
  { putp fep .restoreCursor with cursor := fep.cursorSave }

/-- A substring of `trunc` written to the terminal, unless `_fep_substring` returns `NULL`. -/
def writeSubstring (fep : Fep loc) (trunc : List UInt8) (first last : BitVec 32) : Fep loc :=
  match substring loc trunc first.toInt last.toInt with
  | none => fep
  | some p => writeTty fep p

/-- The part of `_fep_output_string_with_attribute` that writes the truncated text. -/
def outputTruncated (fep : Fep loc) (trunc : List UInt8) (attr : FepAttribute) : Fep loc :=
  let length := BitVec.ofInt 32 (charcount loc trunc)
  let index1 := if length < attr.startIndex then length else attr.startIndex
  let index2 := if length < attr.endIndex then length else attr.endIndex
  let startIndex := if index2 < index1 then index2 else index1
  let endIndex := if index2 < index1 then index1 else index2
  let decorated := attr.type ≠ fepAttrTypeNone
  let fep := if 0 < startIndex ∧ decorated then writeSubstring fep trunc 0 startIndex else fep
  let fep :=
    if startIndex < endIndex then
      let fep := if decorated then outputSetAttributes fep (sgrAttrFromAttribute attr) else fep
      let fep := writeSubstring fep trunc startIndex endIndex
      if decorated then outputSetAttributes fep fep.attrTty else fep
    else fep
  if endIndex < length then writeSubstring fep trunc endIndex length else fep

def outputStringWithAttribute (fep : Fep loc) (str : List UInt8) (width : Int)
    (attr : FepAttribute) : Except Fault (Fep loc) :=
  if str = [] then .ok fep
  else
    let fep := applyAttr { fep with ptybuf := [] } fep.attrTty
    match loc.strIconv str with
    -- `_fep_strtrunc` takes the length of a null pointer
    | none => .error .badAccess
    | some local' =>
      match strtrunc loc local' width with
      | none => .ok fep
      | some trunc => .ok (outputTruncated fep trunc attr)

def outputStatusText (fep : Fep loc) (text : List UInt8) (attr : FepAttribute) :
    Except Fault (Fep loc) := do
  let fep := { fep with statusText := text, statusTextAttr := attr }
  let fep := putp fep .saveCursor
  let fep := outputCursorAddress fep fep.winsize.wsRow.toNat 0
  let fep := putp fep .clrEol
  let fep ← outputStringWithAttribute fep fep.statusText fep.winsize.wsCol.toNat attr
  return putp fep .restoreCursor

/-- The first half of `_fep_output_cursor_text`: a text that is shown is blanked. -/
def blankCursorText (fep : Fep loc) : Except Fault (Fep loc) :=
  match fep.cursorText with
  | none => .ok fep
  | some old =>
    let width := strwidth loc ((loc.strIconv old.text).get old.converts)
    let fep := outputSaveCursor fep
    let width := min width (fep.winsize.wsCol.toNat - fep.cursor.col)
    -- `xcharalloc` of a negative number of bytes
    if width < 0 then .error .allocFailed
    else
      let fep := writeTty fep (List.replicate width.toNat 0x20)
      .ok (outputRestoreCursor { fep with cursorText := none })

/-- The second half of `_fep_output_cursor_text`: the text is shown, if it is not empty. -/
def drawCursorText (fep : Fep loc) (text : List UInt8) (attr : FepAttribute) :
    Except Fault (Fep loc) := do
  if hne : text ≠ [] then
    if hconv : (loc.strIconv text).isSome = true then
      let fep := { fep with cursorText := some ⟨text, hne, hconv⟩ }
      let fep := outputSaveCursor fep
      let fep := { fep with cursorTextAttr := attr }
      let fep ← outputStringWithAttribute fep text (fep.winsize.wsCol.toNat - fep.cursor.col) attr
      return outputRestoreCursor fep
    else .error .badAccess
  else return fep

def outputCursorText (fep : Fep loc) (text : List UInt8) (attr : FepAttribute) :
    Except Fault (Fep loc) := do
  let fep ← blankCursorText fep
  drawCursorText fep text attr

def outputSetScreenSize (fep : Fep loc) (_col row : Int) : Except Fault (Fep loc) := do
  let fep := outputSaveCursor fep
  let fep := outputChangeScrollRegion fep 0 (row - 1)
  let fep ← outputStatusText fep fep.statusText fep.statusTextAttr
  return outputRestoreCursor fep

def outputInitScreen (fep : Fep loc) : Except Fault (Fep loc) :=
  let fep := outputChangeScrollRegion fep 0 (fep.winsize.wsRow.toNat - 1)
  let fep := putp fep .clearScreen
  let fep := putp fep .cursorInvisible
  let fep := { fep with cursor := ⟨-1, -1⟩ }
  let fep := putp fep .cursorNormal
  outputStatusText fep [] fep.statusTextAttr

/-- The output of `handle_winch_signal` when the kernel reports a size. The scroll region is set for the
size before. -/
def handleWinchSignal (fep : Fep loc) (reported : Winsize) : Except Fault (Fep loc) :=
  let old := fep.winsize
  outputSetScreenSize { fep with winsize := { reported with wsRow := reported.wsRow - 1 } }
    old.wsCol.toNat old.wsRow.toNat

/-! ## What the output functions leave -/

theorem attr_applyAttr (fep : Fep loc) (attr : FepSgrAttr) : (applyAttr fep attr).attr = attr := by
  unfold applyAttr
  split
  · rfl
  · split
    · rfl
    · next heq => exact not_not.mp heq

/-- What no overlay changes: the attributes kept for the terminal and for the child, and the codes. -/
structure OverlayFrame (fep fep' : Fep loc) : Prop where
  attrTty : fep'.attrTty = fep.attrTty
  attrPty : fep'.attrPty = fep.attrPty
  sgrCodes : fep'.sgrCodes = fep.sgrCodes

/-- What output to the terminal leaves besides, and that it ends with the attributes of the terminal
if it starts with them. -/
structure DrawFrame (fep fep' : Fep loc) : Prop extends OverlayFrame fep fep' where
  ptybuf : fep'.ptybuf = fep.ptybuf
  cursorText : fep'.cursorText = fep.cursorText
  attr : fep.attr = fep.attrTty → fep'.attr = fep'.attrTty

theorem OverlayFrame.refl (fep : Fep loc) : OverlayFrame fep fep := ⟨rfl, rfl, rfl⟩

theorem OverlayFrame.trans {a b c : Fep loc} (hab : OverlayFrame a b) (hbc : OverlayFrame b c) :
    OverlayFrame a c :=
  ⟨hbc.attrTty.trans hab.attrTty, hbc.attrPty.trans hab.attrPty, hbc.sgrCodes.trans hab.sgrCodes⟩

theorem DrawFrame.refl (fep : Fep loc) : DrawFrame fep fep := ⟨.refl fep, rfl, rfl, id⟩

theorem DrawFrame.trans {a b c : Fep loc} (hab : DrawFrame a b) (hbc : DrawFrame b c) :
    DrawFrame a c :=
  ⟨hab.toOverlayFrame.trans hbc.toOverlayFrame, hbc.ptybuf.trans hab.ptybuf,
    hbc.cursorText.trans hab.cursorText, hbc.attr ∘ hab.attr⟩

theorem DrawFrame.ite {a b c : Fep loc} {cond : Prop} [Decidable cond] (hb : DrawFrame a b)
    (hc : DrawFrame a c) : DrawFrame a (if cond then b else c) := by
  split
  · exact hb
  · exact hc

theorem DrawFrame.writeTty (fep : Fep loc) (bytes : List UInt8) :
    DrawFrame fep (writeTty fep bytes) := ⟨⟨rfl, rfl, rfl⟩, rfl, rfl, id⟩

theorem DrawFrame.writeSubstring (fep : Fep loc) (trunc : List UInt8) (first last : BitVec 32) :
    DrawFrame fep (writeSubstring fep trunc first last) := by
  unfold LibFep.writeSubstring
  split
  · exact .refl fep
  · exact .writeTty fep _

/-- The marked part of the text: the attributes are changed and changed back. -/
theorem DrawFrame.decorated (fep : Fep loc) (attr : FepSgrAttr) (trunc : List UInt8)
    (first last : BitVec 32) {fep' : Fep loc}
    (h : fep' = LibFep.writeSubstring (outputSetAttributes fep attr) trunc first last) :
    DrawFrame fep (outputSetAttributes fep' fep'.attrTty) := by
  have hwrite := DrawFrame.writeSubstring (outputSetAttributes fep attr) trunc first last
  rw [← h] at hwrite
  exact ⟨⟨hwrite.attrTty, hwrite.attrPty, hwrite.sgrCodes⟩, hwrite.ptybuf, hwrite.cursorText,
    fun _ => rfl⟩

theorem DrawFrame.outputTruncated (fep : Fep loc) (trunc : List UInt8) (attr : FepAttribute) :
    DrawFrame fep (outputTruncated fep trunc attr) := by
  unfold LibFep.outputTruncated
  dsimp only
  refine .trans (.trans (.ite (.writeSubstring fep _ _ _) (.refl fep)) (.ite ?_ (.refl _)))
    (.ite (.writeSubstring _ _ _ _) (.refl _))
  by_cases hdec : attr.type ≠ fepAttrTypeNone
  · simp only [if_pos hdec]
    exact .decorated _ _ _ _ _ rfl
  · simp only [if_neg hdec]
    exact .writeSubstring _ _ _ _

theorem applyAttr_frame (fep : Fep loc) (attr : FepSgrAttr) :
    OverlayFrame fep (applyAttr fep attr) ∧ (applyAttr fep attr).ptybuf = fep.ptybuf ∧
      (applyAttr fep attr).cursorText = fep.cursorText := by
  unfold applyAttr
  split
  · exact ⟨⟨rfl, rfl, rfl⟩, rfl, rfl⟩
  · split
    · exact ⟨⟨rfl, rfl, rfl⟩, rfl, rfl⟩
    · exact ⟨⟨rfl, rfl, rfl⟩, rfl, rfl⟩

/-- The state after a text was shown: nothing is left in `ptybuf`, and the attributes in use are those
of the terminal. -/
structure TextShown (fep fep' : Fep loc) : Prop extends OverlayFrame fep fep' where
  ptybuf : fep'.ptybuf = []
  attr : fep'.attr = fep.attrTty
  cursorText : fep'.cursorText = fep.cursorText

/-- A text that is not empty and can be converted is shown. -/
theorem outputStringWithAttribute_of_converts (fep : Fep loc) {str : List UInt8} (hne : str ≠ [])
    (hconv : (loc.strIconv str).isSome = true) (width : Int) (attr : FepAttribute) :
    ∃ fep', outputStringWithAttribute fep str width attr = .ok fep' ∧ TextShown fep fep' := by
  obtain ⟨hframe, hptybuf, htext⟩ := applyAttr_frame { fep with ptybuf := [] } fep.attrTty
  have hattr := attr_applyAttr { fep with ptybuf := [] } fep.attrTty
  have hshown : TextShown fep (applyAttr { fep with ptybuf := [] } fep.attrTty) :=
    ⟨⟨hframe.attrTty, hframe.attrPty, hframe.sgrCodes⟩, hptybuf, hattr, htext⟩
  unfold outputStringWithAttribute
  rw [if_neg hne]
  obtain ⟨local', hlocal⟩ := Option.isSome_iff_exists.mp hconv
  rw [hlocal]
  dsimp only
  cases strtrunc loc local' width with
  | none => exact ⟨_, rfl, hshown⟩
  | some trunc =>
    have hdraw := DrawFrame.outputTruncated (applyAttr { fep with ptybuf := [] } fep.attrTty) trunc
      attr
    have htty := hdraw.attr (hattr.trans hshown.attrTty.symm)
    exact ⟨_, rfl, hshown.toOverlayFrame.trans hdraw.toOverlayFrame,
      hdraw.ptybuf.trans hshown.ptybuf,
      htty.trans (hdraw.attrTty.trans hshown.attrTty), hdraw.cursorText.trans hshown.cursorText⟩

/-- Whatever text is shown, the child's attributes stay. -/
theorem outputStringWithAttribute_frame {fep fep' : Fep loc} {str : List UInt8} {width : Int}
    {attr : FepAttribute} (h : outputStringWithAttribute fep str width attr = .ok fep') :
    OverlayFrame fep fep' := by
  by_cases hne : str = []
  · rw [outputStringWithAttribute, if_pos hne, Except.ok.injEq] at h
    exact h ▸ .refl fep
  · cases hconv : loc.strIconv str with
    | none =>
      rw [outputStringWithAttribute, if_neg hne, hconv] at h
      exact absurd h (by simp)
    | some local' =>
      obtain ⟨fep'', hok, hshown⟩ :=
        outputStringWithAttribute_of_converts fep hne (by rw [hconv]; rfl) width attr
      rw [hok, Except.ok.injEq] at h
      exact h ▸ hshown.toOverlayFrame

/-! ## Overlays -/

/-- **The text at the cursor can always be shown again.** -/
theorem drawCursorText_of_converts (fep : Fep loc) (c : CursorText loc) (attr : FepAttribute) :
    ∃ fep', drawCursorText fep c.text attr = .ok fep' ∧ OverlayFrame fep fep' ∧
      fep'.ptybuf = [] ∧ fep'.attr = fep.attrTty ∧ fep'.cursorText = some c := by
  obtain ⟨fep', hok, hshown⟩ := outputStringWithAttribute_of_converts
    { outputSaveCursor { fep with cursorText := some c } with cursorTextAttr := attr } c.ne_nil
    c.converts (fep.winsize.wsCol.toNat - fep.cursor.col) attr
  refine ⟨outputRestoreCursor fep', ?_, ⟨hshown.attrTty, hshown.attrPty, hshown.sgrCodes⟩,
    hshown.ptybuf, hshown.attr, hshown.cursorText⟩
  unfold drawCursorText
  rw [dif_pos c.ne_nil, dif_pos c.converts]
  exact bind_eq_ok.mpr ⟨fep', hok, rfl⟩

theorem outputStatusText_frame {fep fep' : Fep loc} {text : List UInt8} {attr : FepAttribute}
    (h : outputStatusText fep text attr = .ok fep') : OverlayFrame fep fep' := by
  obtain ⟨fep'', hok, hfep'⟩ := bind_eq_ok.mp h
  have hframe := outputStringWithAttribute_frame hok
  rw [← Except.ok.inj hfep']
  exact ⟨hframe.attrTty, hframe.attrPty, hframe.sgrCodes⟩

theorem blankCursorText_frame {fep fep' : Fep loc} (h : blankCursorText fep = .ok fep') :
    OverlayFrame fep fep' := by
  unfold blankCursorText at h
  split at h
  · rw [Except.ok.injEq] at h
    exact h ▸ .refl fep
  · dsimp only at h
    split at h
    · exact absurd h (by simp)
    · rw [← Except.ok.inj h]
      exact ⟨rfl, rfl, rfl⟩

theorem drawCursorText_frame {fep fep' : Fep loc} {text : List UInt8} {attr : FepAttribute}
    (h : drawCursorText fep text attr = .ok fep') : OverlayFrame fep fep' := by
  unfold drawCursorText at h
  split at h
  · next hne =>
    split at h
    · next hconv =>
      obtain ⟨fep'', hok, hframe, -⟩ := drawCursorText_of_converts fep ⟨text, hne, hconv⟩ attr
      unfold drawCursorText at hok
      rw [dif_pos hne, dif_pos hconv] at hok
      rw [Except.ok.inj (h.symm.trans hok)]
      exact hframe
    · exact absurd h (by simp)
  · rw [← Except.ok.inj h]
    exact .refl fep

theorem outputCursorText_frame {fep fep' : Fep loc} {text : List UInt8} {attr : FepAttribute}
    (h : outputCursorText fep text attr = .ok fep') : OverlayFrame fep fep' := by
  obtain ⟨fep'', hblank, hdraw⟩ := bind_eq_ok.mp h
  exact (blankCursorText_frame hblank).trans (drawCursorText_frame hdraw)

theorem outputSetScreenSize_frame {fep fep' : Fep loc} (col row : Int)
    (h : outputSetScreenSize fep col row = .ok fep') : OverlayFrame fep fep' := by
  obtain ⟨fep'', hok, hfep'⟩ := bind_eq_ok.mp h
  have hframe := outputStatusText_frame hok
  rw [← Except.ok.inj hfep']
  exact ⟨hframe.attrTty, hframe.attrPty, hframe.sgrCodes⟩

theorem handleWinchSignal_frame {fep fep' : Fep loc} {reported : Winsize}
    (h : handleWinchSignal fep reported = .ok fep') : OverlayFrame fep fep' := by
  have hframe := outputSetScreenSize_frame fep.winsize.wsCol.toNat fep.winsize.wsRow.toNat h
  exact ⟨hframe.attrTty, hframe.attrPty, hframe.sgrCodes⟩

end LibFep
