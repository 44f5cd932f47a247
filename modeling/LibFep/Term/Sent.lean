import LibFep.Term.PtyOutput

/-!
# LibFep — what the overlays send

The pieces of output that the functions for the two texts, the screen size and the child's output send to
the terminal, in order, and the fields they leave.

* **`TextSent`** — a text is shown with attributes and bytes only.
* **`StatusSent`**, **`BlankSent`**, **`DrawSent`**, **`ScreenSizeSent`** — the output of each function,
  with the text as one block.
* **`outputStringFromPty_sent`** — the child's bytes are followed by the cursor text, if there is one.
-/

namespace LibFep

variable {loc : Locale}

/-! ## A text -/

/-- What is sent for a text once the cursor is where it is to be shown. -/
def TtyOutput.IsText : TtyOutput → Prop
  | .putp .exitAttributeMode | .sgr _ | .write _ => True
  | .putp _ => False

/-- The fields that no text on its way to the terminal changes. -/
structure TextFrame (fep fep' : Fep loc) : Prop where
  cursorText : fep'.cursorText = fep.cursorText
  cursor : fep'.cursor = fep.cursor
  cursorSave : fep'.cursorSave = fep.cursorSave
  cursorTextAttr : fep'.cursorTextAttr = fep.cursorTextAttr
  statusText : fep'.statusText = fep.statusText
  statusTextAttr : fep'.statusTextAttr = fep.statusTextAttr
  winsize : fep'.winsize = fep.winsize

structure TextSent (fep fep' : Fep loc) : Prop extends TextFrame fep fep' where
  output : ∃ pieces, (∀ o ∈ pieces, TtyOutput.IsText o) ∧ fep'.output = fep.output ++ pieces

theorem TextFrame.refl (fep : Fep loc) : TextFrame fep fep := ⟨rfl, rfl, rfl, rfl, rfl, rfl, rfl⟩

theorem TextFrame.trans {a b c : Fep loc} (hab : TextFrame a b) (hbc : TextFrame b c) :
    TextFrame a c where
  cursorText := hbc.cursorText.trans hab.cursorText
  cursor := hbc.cursor.trans hab.cursor
  cursorSave := hbc.cursorSave.trans hab.cursorSave
  cursorTextAttr := hbc.cursorTextAttr.trans hab.cursorTextAttr
  statusText := hbc.statusText.trans hab.statusText
  statusTextAttr := hbc.statusTextAttr.trans hab.statusTextAttr
  winsize := hbc.winsize.trans hab.winsize

theorem TextSent.refl (fep : Fep loc) : TextSent fep fep :=
  ⟨.refl fep, [], List.forall_mem_nil _, (List.append_nil _).symm⟩

theorem TextSent.trans {a b c : Fep loc} (hab : TextSent a b) (hbc : TextSent b c) :
    TextSent a c := by
  obtain ⟨first, htext, hfirst⟩ := hab.output
  obtain ⟨rest, htext', hrest⟩ := hbc.output
  refine ⟨hab.toTextFrame.trans hbc.toTextFrame, first ++ rest, ?_, ?_⟩
  · exact List.forall_mem_append.mpr ⟨htext, htext'⟩
  · rw [hrest, hfirst, List.append_assoc]

theorem TextSent.ite {a b c : Fep loc} {cond : Prop} [Decidable cond] (hb : TextSent a b)
    (hc : TextSent a c) : TextSent a (if cond then b else c) := by
  split
  · exact hb
  · exact hc

/-- One piece is sent. -/
theorem TextSent.one {fep fep' : Fep loc} {o : TtyOutput} (ho : o.IsText)
    (hframe : TextFrame fep fep') (h : fep'.output = fep.output ++ [o]) : TextSent fep fep' :=
  ⟨hframe, [o], List.forall_mem_singleton.mpr ho, h⟩

theorem TextSent.outputSetAttributes (fep : Fep loc) (attr : FepSgrAttr) :
    TextSent fep (outputSetAttributes fep attr) :=
  .one (o := .sgr _) trivial ⟨rfl, rfl, rfl, rfl, rfl, rfl, rfl⟩ rfl

theorem TextSent.exitAttributeMode (fep : Fep loc) : TextSent fep (putp fep .exitAttributeMode) :=
  .one (o := .putp .exitAttributeMode) trivial ⟨rfl, rfl, rfl, rfl, rfl, rfl, rfl⟩ rfl

theorem TextSent.writeTty (fep : Fep loc) (bytes : List UInt8) : TextSent fep (writeTty fep bytes) :=
  .one (o := .write bytes) trivial ⟨rfl, rfl, rfl, rfl, rfl, rfl, rfl⟩ rfl

theorem TextSent.applyAttr (fep : Fep loc) (attr : FepSgrAttr) :
    TextSent fep (applyAttr fep attr) := by
  unfold LibFep.applyAttr
  split
  · exact .trans (.exitAttributeMode fep) (.outputSetAttributes _ _)
  · exact .ite (.outputSetAttributes _ _) (.refl fep)

theorem TextSent.writeSubstring (fep : Fep loc) (trunc : List UInt8) (first last : BitVec 32) :
    TextSent fep (writeSubstring fep trunc first last) := by
  unfold LibFep.writeSubstring
  split
  · exact .refl fep
  · exact .writeTty fep _

theorem TextSent.outputTruncated (fep : Fep loc) (trunc : List UInt8) (attr : FepAttribute) :
    TextSent fep (outputTruncated fep trunc attr) := by
  unfold LibFep.outputTruncated
  dsimp only
  refine .trans (.trans (.ite (.writeSubstring _ _ _ _) (.refl _)) (.ite ?_ (.refl _)))
    (.ite (.writeSubstring _ _ _ _) (.refl _))
  -- the marked part
  exact .trans (.trans (.ite (.outputSetAttributes _ _) (.refl _)) (.writeSubstring _ _ _ _))
    (.ite (.outputSetAttributes _ _) (.refl _))

theorem TextSent.outputStringWithAttribute {fep fep' : Fep loc} {str : List UInt8} {width : Int}
    {attr : FepAttribute} (h : outputStringWithAttribute fep str width attr = .ok fep') :
    TextSent fep fep' := by
  have hclear : TextSent fep { fep with ptybuf := [] } :=
    ⟨⟨rfl, rfl, rfl, rfl, rfl, rfl, rfl⟩, [], List.forall_mem_nil _, (List.append_nil _).symm⟩
  have happly := hclear.trans (.applyAttr _ fep.attrTty)
  unfold LibFep.outputStringWithAttribute at h
  split at h
  · exact Except.ok.inj h ▸ .refl fep
  · dsimp only at h
    split at h
    · exact absurd h (by simp)
    · split at h
      · exact Except.ok.inj h ▸ happly
      · exact Except.ok.inj h ▸ happly.trans (.outputTruncated _ _ _)

/-! ## The status text -/

structure StatusSent (fep : Fep loc) (text : List UInt8) (attr : FepAttribute) (fep' : Fep loc) :
    Prop where
  output : ∃ pieces, (∀ o ∈ pieces, TtyOutput.IsText o) ∧
    fep'.output = fep.output ++ .putp .saveCursor ::
      .putp (.cursorAddress fep.winsize.wsRow.toNat 0) :: .putp .clrEol ::
        (pieces ++ [.putp .restoreCursor])
  cursorText : fep'.cursorText = fep.cursorText
  cursorTextAttr : fep'.cursorTextAttr = fep.cursorTextAttr
  /-- `_fep_putp (fep, restore_cursor)` does not put the old position back. -/
  cursor : fep'.cursor = ⟨fep.winsize.wsRow.toNat, 0⟩
  cursorSave : fep'.cursorSave = fep.cursorSave
  statusText : fep'.statusText = text
  statusTextAttr : fep'.statusTextAttr = attr
  winsize : fep'.winsize = fep.winsize

theorem outputStatusText_sent {fep fep' : Fep loc} {text : List UInt8} {attr : FepAttribute}
    (h : outputStatusText fep text attr = .ok fep') : StatusSent fep text attr fep' := by
  obtain ⟨fep'', hok, hfep'⟩ := bind_eq_ok.mp h
  have hsent := TextSent.outputStringWithAttribute hok
  obtain ⟨pieces, htext, houtput⟩ := hsent.output
  rw [← Except.ok.inj hfep']
  refine ⟨⟨pieces, htext, ?_⟩, hsent.cursorText, hsent.cursorTextAttr, hsent.cursor,
    hsent.cursorSave, hsent.statusText, hsent.statusTextAttr, hsent.winsize⟩
  show fep''.output ++ _ = _
  rw [houtput]
  simp [outputCursorAddress, putp]

/-- A text that is empty or can be converted is always shown. -/
theorem exists_outputStatusText (fep : Fep loc) {text : List UInt8}
    (h : text ≠ [] → (loc.strIconv text).isSome = true) (attr : FepAttribute) :
    ∃ fep', outputStatusText fep text attr = .ok fep' := by
  have hshown (fep : Fep loc) (width : Int) :
      ∃ fep', outputStringWithAttribute fep text width attr = .ok fep' := by
    by_cases hne : text = []
    · exact ⟨fep, by rw [outputStringWithAttribute, if_pos hne]⟩
    · obtain ⟨fep', hok, -⟩ := outputStringWithAttribute_of_converts fep hne (h hne) width attr
      exact ⟨fep', hok⟩
  obtain ⟨fep', hok⟩ := hshown _ _
  exact ⟨_, bind_eq_ok.mpr ⟨fep', hok, rfl⟩⟩

/-! ## The text at the cursor -/

structure BlankSent (fep fep' : Fep loc) : Prop where
  output : ∃ spaces, fep'.output = fep.output ++
    [.putp .saveCursor, .write spaces, .putp .restoreCursor]
  cursorText : fep'.cursorText = none
  cursorTextAttr : fep'.cursorTextAttr = fep.cursorTextAttr
  cursor : fep'.cursor = fep.cursor
  cursorSave : fep'.cursorSave = fep.cursor
  statusText : fep'.statusText = fep.statusText
  statusTextAttr : fep'.statusTextAttr = fep.statusTextAttr
  winsize : fep'.winsize = fep.winsize

theorem blankCursorText_sent {fep fep' : Fep loc} {c : CursorText loc}
    (hc : fep.cursorText = some c) (h : blankCursorText fep = .ok fep') : BlankSent fep fep' := by
  unfold blankCursorText at h
  rw [hc] at h
  dsimp only at h
  split at h
  · exact absurd h (by simp)
  · rw [← Except.ok.inj h]
    exact ⟨⟨_, by simp [outputRestoreCursor, writeTty, outputSaveCursor, putp]; rfl⟩, rfl, rfl, rfl,
      rfl, rfl, rfl, rfl⟩

structure DrawSent (fep : Fep loc) (text : List UInt8) (attr : FepAttribute) (fep' : Fep loc) :
    Prop where
  output : ∃ pieces, (∀ o ∈ pieces, TtyOutput.IsText o) ∧
    fep'.output = fep.output ++ .putp .saveCursor :: (pieces ++ [.putp .restoreCursor])
  cursorText : fep'.cursorText.map (·.text) = some text
  cursorTextAttr : fep'.cursorTextAttr = attr
  cursor : fep'.cursor = fep.cursor
  cursorSave : fep'.cursorSave = fep.cursor
  statusText : fep'.statusText = fep.statusText
  statusTextAttr : fep'.statusTextAttr = fep.statusTextAttr
  winsize : fep'.winsize = fep.winsize

theorem drawCursorText_sent {fep fep' : Fep loc} {text : List UInt8} {attr : FepAttribute}
    (hne : text ≠ []) (h : drawCursorText fep text attr = .ok fep') :
    DrawSent fep text attr fep' := by
  unfold drawCursorText at h
  rw [dif_pos hne] at h
  split at h
  · next hconv =>
    obtain ⟨fep'', hok, hfep'⟩ := bind_eq_ok.mp h
    have hsent := TextSent.outputStringWithAttribute hok
    obtain ⟨pieces, htext, houtput⟩ := hsent.output
    rw [← Except.ok.inj hfep']
    refine ⟨⟨pieces, htext, ?_⟩, congrArg (Option.map CursorText.text) hsent.cursorText,
      hsent.cursorTextAttr, hsent.cursorSave, hsent.cursorSave, hsent.statusText,
      hsent.statusTextAttr, hsent.winsize⟩
    show fep''.output ++ _ = _
    rw [houtput]
    simp [outputSaveCursor, putp]
  · exact absurd h (by simp)

theorem drawCursorText_nil {fep fep' : Fep loc} {attr : FepAttribute}
    (h : drawCursorText fep [] attr = .ok fep') : fep' = fep := (Except.ok.inj h).symm

/-! ## The screen size -/

structure ScreenSizeSent (fep : Fep loc) (row : Int) (fep' : Fep loc) : Prop where
  output : ∃ pieces, (∀ o ∈ pieces, TtyOutput.IsText o) ∧
    fep'.output = fep.output ++ .putp .saveCursor :: .putp (.changeScrollRegion 0 (row - 1)) ::
      .putp .saveCursor :: .putp (.cursorAddress fep.winsize.wsRow.toNat 0) :: .putp .clrEol ::
        (pieces ++ [.putp .restoreCursor, .putp .restoreCursor])
  cursorText : fep'.cursorText = fep.cursorText
  cursorTextAttr : fep'.cursorTextAttr = fep.cursorTextAttr
  cursor : fep'.cursor = fep.cursor
  cursorSave : fep'.cursorSave = fep.cursor
  statusText : fep'.statusText = fep.statusText
  statusTextAttr : fep'.statusTextAttr = fep.statusTextAttr
  winsize : fep'.winsize = fep.winsize

theorem outputSetScreenSize_sent {fep fep' : Fep loc} (col row : Int)
    (h : outputSetScreenSize fep col row = .ok fep') : ScreenSizeSent fep row fep' := by
  obtain ⟨fep'', hok, hfep'⟩ := bind_eq_ok.mp h
  have hsent := outputStatusText_sent hok
  obtain ⟨pieces, htext, houtput⟩ := hsent.output
  rw [← Except.ok.inj hfep']
  refine ⟨⟨pieces, htext, ?_⟩, hsent.cursorText, hsent.cursorTextAttr, hsent.cursorSave,
    hsent.cursorSave, hsent.statusText, hsent.statusTextAttr, hsent.winsize⟩
  show fep''.output ++ _ = _
  rw [houtput]
  simp [outputSaveCursor, outputChangeScrollRegion, putp]

/-- The handler draws the status line for the size reported, and the scroll region for the one before. -/
theorem handleWinchSignal_sent {fep fep' : Fep loc} {reported : Winsize}
    (h : handleWinchSignal fep reported = .ok fep') :
    ScreenSizeSent { fep with winsize := { reported with wsRow := reported.wsRow - 1 } }
      fep.winsize.wsRow.toNat fep' :=
  outputSetScreenSize_sent fep.winsize.wsCol.toNat fep.winsize.wsRow.toNat h

theorem exists_handleWinchSignal (fep : Fep loc)
    (h : fep.statusText ≠ [] → (loc.strIconv fep.statusText).isSome = true) (reported : Winsize) :
    ∃ fep', handleWinchSignal fep reported = .ok fep' := by
  obtain ⟨fep', hok⟩ := exists_outputStatusText (outputChangeScrollRegion (outputSaveCursor
    { fep with winsize := { reported with wsRow := reported.wsRow - 1 } }) 0
    (fep.winsize.wsRow.toNat - 1)) h fep.statusTextAttr
  exact ⟨_, bind_eq_ok.mpr ⟨fep', hok, rfl⟩⟩

/-! ## The child's output -/

/-- Attributes without text. -/
def TtyOutput.IsAttribute : TtyOutput → Prop
  | .putp .exitAttributeMode | .sgr _ => True
  | .putp _ | .write _ => False

theorem applyAttr_output (fep : Fep loc) (attr : FepSgrAttr) :
    ∃ pieces, (∀ o ∈ pieces, TtyOutput.IsAttribute o) ∧
      (applyAttr fep attr).output = fep.output ++ pieces := by
  unfold applyAttr
  split
  · exact ⟨[.putp .exitAttributeMode, .sgr _], by simp [TtyOutput.IsAttribute],
      by simp [outputSetAttributes, putp]; rfl⟩
  · split
    · exact ⟨[.sgr _], by simp [TtyOutput.IsAttribute], rfl⟩
    · exact ⟨[], List.forall_mem_nil _, (List.append_nil _).symm⟩

/-- The bytes of the child have been written, and the cursor text not yet shown again. -/
structure ChunkSent (fep : Fep loc) (chunk : List UInt8) (mid : Fep loc) : Prop where
  output : mid.output = (writeTty (applyAttr fep fep.attrPty) chunk).output
  cursorText : mid.cursorText = fep.cursorText
  cursorTextAttr : mid.cursorTextAttr = fep.cursorTextAttr
  cursor : mid.cursor = ⟨-1, -1⟩
  cursorSave : mid.cursorSave = fep.cursorSave
  statusText : mid.statusText = fep.statusText
  statusTextAttr : mid.statusTextAttr = fep.statusTextAttr
  winsize : mid.winsize = fep.winsize

/-- The cursor text is shown again, and not blanked first: it has been taken out of the state. -/
theorem restoreCursorText_sent {mid fep' : Fep loc} (h : restoreCursorText mid = .ok fep') :
    (mid.cursorText = none → fep' = mid) ∧
      ∀ c, mid.cursorText = some c →
        DrawSent { mid with cursorText := none } c.text mid.cursorTextAttr fep' := by
  unfold restoreCursorText at h
  cases htext : mid.cursorText with
  | none =>
    rw [htext] at h
    exact ⟨fun _ => (Except.ok.inj h).symm, fun c hc => absurd hc (by simp)⟩
  | some c =>
    rw [htext] at h
    refine ⟨fun hnone => absurd hnone (by simp), fun c' hc' => ?_⟩
    obtain rfl := Option.some.inj hc'
    exact drawCursorText_sent c.ne_nil h

/-- The function up to the cursor text. -/
theorem outputStringFromPty_mid {p : Platform} {fep fep' : Fep loc} {str : List UInt8} {strLen : Nat}
    (hpos : 0 < strLen) (hlen : strLen ≤ str.length)
    (h : outputStringFromPty p fep str strLen = .ok fep') :
    ∃ mid, ChunkSent fep (str.take strLen) mid ∧ restoreCursorText mid = .ok fep' := by
  have hframe := (TextSent.applyAttr fep fep.attrPty).toTextFrame
  rw [outputStringFromPty, if_pos (Int.natCast_pos.mpr hpos)] at h
  obtain ⟨⟨attrPty, sgr⟩, -, hrestore⟩ := bind_eq_ok.mp h
  rw [Int.toNat_natCast, window_take hlen] at hrestore
  dsimp only at hrestore
  refine ⟨_, ?_, hrestore⟩
  exact ⟨rfl, hframe.cursorText, hframe.cursorTextAttr, rfl, hframe.cursorSave, hframe.statusText,
    hframe.statusTextAttr, hframe.winsize⟩

/-- The first bytes of a buffer, at least one. -/
theorem outputStringFromPty_taken {p : Platform} {fep fep' : Fep loc} {str : List UInt8}
    {strLen : Nat} (hpos : 0 < strLen) (hlen : strLen ≤ str.length)
    (h : outputStringFromPty p fep str strLen = .ok fep') :
    ∃ mid, ChunkSent fep (str.take strLen) mid ∧
      (fep.cursorText = none → fep' = mid) ∧
      ∀ c, fep.cursorText = some c →
        DrawSent { mid with cursorText := none } c.text fep.cursorTextAttr fep' := by
  obtain ⟨mid, hmid, hrestore⟩ := outputStringFromPty_mid hpos hlen h
  obtain ⟨hnone, hsome⟩ := restoreCursorText_sent hrestore
  exact ⟨mid, hmid, fun h => hnone (hmid.cursorText.trans h),
    fun c h => hmid.cursorTextAttr ▸ hsome c (hmid.cursorText.trans h)⟩

/-- A chunk is not empty. -/
theorem outputStringFromPty_sent {p : Platform} {fep fep' : Fep loc} {chunk : List UInt8}
    (hne : chunk ≠ []) (h : outputStringFromPty p fep chunk chunk.length = .ok fep') :
    ∃ mid, ChunkSent fep chunk mid ∧
      (fep.cursorText = none → fep' = mid) ∧
      ∀ c, fep.cursorText = some c →
        DrawSent { mid with cursorText := none } c.text fep.cursorTextAttr fep' := by
  have hsent := outputStringFromPty_taken (List.length_pos_iff.mpr hne) (Nat.le_refl _) h
  rwa [List.take_length] at hsent

end LibFep
