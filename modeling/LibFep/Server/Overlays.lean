import LibFep.Lib.Runs
import LibFep.Control.AttributeArg
import LibFep.Server.Handlers
import LibFep.Term.ChildOutput
import LibFep.Term.Sent

/-!
# LibFep — the texts of the clients

`command_set_cursor_text` and `command_set_status_text` of `fep/control.c`, and what becomes of the two
texts and their attributes in a run. The output functions pass the stored texts back to the functions
that store them: the child's output takes the cursor text out and shows it again, a new window size shows
the status text again.

* **`tracks_step_iff`** — a step keeps the texts and attributes requested exactly if its attribute is
  read back as it was sent.
* **`redrawnOnce_of_chunk`** — the child's output shows the cursor text once more, and never blanks it.
* **`overlays_iff`** — the runs in which all of this holds.
-/

namespace LibFep

open Lib

variable {loc : Locale}

/-! ## The handlers -/

def commandSetCursorText (p : Platform) (fep : Fep loc) (request : FepControlMessage) :
    Except Fault (Fep loc) := do
  match ← controlMessageReadAttributeArg p request 1 with
  | some attr => outputCursorText fep (cBytes (request.args.headD [])) attr
  | none => return fep

def commandSetStatusText (p : Platform) (fep : Fep loc) (request : FepControlMessage) :
    Except Fault (Fep loc) := do
  match ← controlMessageReadAttributeArg p request 1 with
  | some attr => outputStatusText fep (cBytes (request.args.headD [])) attr
  | none => return fep

/-! ## Requests -/

/-- A text that can be shown. -/
structure PrintableText (loc : Locale) where
  bytes : List UInt8
  no_nul : ∀ b ∈ bytes, b ≠ 0
  converts : (loc.strIconv bytes).isSome = true
  printable : ∀ wc ∈ (loc.mbsrtowcs ((loc.strIconv bytes).get converts)).1, 0 ≤ loc.wcwidth wc

theorem cBytes_of_no_nul {text : List UInt8} (h : ∀ b ∈ text, b ≠ 0) : cBytes text = text :=
  List.takeWhile_eq_self_iff.mpr fun b hb => decide_eq_true (h b hb)

theorem controlMessageReadAttributeArg_wire (p : Platform) (command : FepControlCommand)
    (text : List UInt8) (attr : FepAttribute) :
    controlMessageReadAttributeArg p ⟨command, [text, p.wireAttribute attr]⟩ 1 =
      .ok (some (attributeOf p (p.wireAttribute attr))) :=
  controlMessageReadAttributeArg_wireAttribute p rfl

/-- What the handler of a request does. -/
theorem commandSetCursorText_message (p : Platform) (fep : Fep loc) (text : PrintableText loc)
    (attr : FepAttribute) :
    commandSetCursorText p fep
        ((ClientRequest.setCursorText text.bytes (some attr)).message p) =
      outputCursorText fep text.bytes (attributeOf p (p.wireAttribute attr)) := by
  show commandSetCursorText p fep ⟨.setCursorText, [cString text.bytes, p.wireAttribute attr]⟩ = _
  rw [commandSetCursorText, controlMessageReadAttributeArg_wire]
  show outputCursorText fep (cBytes (cString text.bytes)) _ = _
  rw [cBytes_cString, cBytes_of_no_nul text.no_nul]

theorem commandSetStatusText_message (p : Platform) (fep : Fep loc) (text : PrintableText loc)
    (attr : FepAttribute) :
    commandSetStatusText p fep
        ((ClientRequest.setStatusText text.bytes (some attr)).message p) =
      outputStatusText fep text.bytes (attributeOf p (p.wireAttribute attr)) := by
  show commandSetStatusText p fep ⟨.setStatusText, [cString text.bytes, p.wireAttribute attr]⟩ = _
  rw [commandSetStatusText, controlMessageReadAttributeArg_wire]
  show outputStatusText fep (cBytes (cString text.bytes)) _ = _
  rw [cBytes_cString, cBytes_of_no_nul text.no_nul]

/-! ## Runs -/

/-- Output of the child that does not fail the assertion: the first bytes of a buffer, which the rest of
the same read may follow. -/
structure ChildChunk (p : Platform) where
  str : List UInt8
  strLen : Nat
  le : strLen ≤ str.length
  passes : ∀ o ∈ reached strLen 0 (occurrences sgrFinal 0 str), SgrPasses p o.2

def ChildChunk.bytes {p : Platform} (chunk : ChildChunk p) : List UInt8 := chunk.str.take chunk.strLen

inductive OverlayOp (p : Platform) (loc : Locale) where
  | cursorText (text : PrintableText loc) (attr : FepAttribute)
  | statusText (text : PrintableText loc) (attr : FepAttribute)
  | chunk (chunk : ChildChunk p)
  | winch (reported : Winsize)

/-- The server, and the text and attribute of the last request of each kind. -/
structure Overlays (loc : Locale) where
  fep : Fep loc
  cursorAsked : List UInt8 × FepAttribute
  statusAsked : List UInt8 × FepAttribute

/-- The screen when `fep_run` gets to `main_loop`. -/
def ScreenStart (fep : Fep loc) : Prop :=
  ∃ codes size, outputInitScreen { Fep.new loc with winsize := size, sgrCodes := codes } = .ok fep

/-- The server after `_fep_output_init_screen`. -/
def overlaysStart (loc : Locale) (codes : SgrCodes) (size : Winsize) :
    Except Fault (Overlays loc) := do
  let fep ← outputInitScreen { Fep.new loc with winsize := size, sgrCodes := codes }
  return ⟨fep, ([], fep.cursorTextAttr), ([], fep.statusTextAttr)⟩

def overlayStep (p : Platform) (s : Overlays loc) :
    OverlayOp p loc → Except Fault (Overlays loc)
  | .cursorText text attr => do
    let fep ← commandSetCursorText p s.fep
      ((ClientRequest.setCursorText text.bytes (some attr)).message p)
    return { s with fep := fep, cursorAsked := (text.bytes, attr) }
  | .statusText text attr => do
    let fep ← commandSetStatusText p s.fep
      ((ClientRequest.setStatusText text.bytes (some attr)).message p)
    return { s with fep := fep, statusAsked := (text.bytes, attr) }
  | .chunk chunk => do
    let fep ← outputStringFromPty p s.fep chunk.str chunk.strLen
    return { s with fep := fep }
  | .winch reported => do
    let fep ← handleWinchSignal s.fep reported
    return { s with fep := fep }

/-- The server has the texts and the attributes of the last requests. -/
structure Tracks (s : Overlays loc) : Prop where
  cursorText : s.fep.cursorText.map (·.text) =
    if s.cursorAsked.1 = [] then none else some s.cursorAsked.1
  cursorTextAttr : s.cursorAsked.1 ≠ [] → s.fep.cursorTextAttr = s.cursorAsked.2
  statusText : s.fep.statusText = s.statusAsked.1
  statusTextAttr : s.fep.statusTextAttr = s.statusAsked.2

/-- The attribute of a request that is kept is read back as it was sent. -/
def KeptReadsBack (p : Platform) : OverlayOp p loc → Prop
  | .cursorText text attr => text.bytes ≠ [] → ReadsBack p attr
  | .statusText _ attr => ReadsBack p attr
  | .chunk _ | .winch _ => True

/-- After the chunk, and not before it, the cursor text is shown, if there is one. -/
def RedrawnOnce (fep : Fep loc) (chunk : List UInt8) (fep' : Fep loc) : Prop :=
  ∃ mid pieces, (∀ o ∈ pieces, TtyOutput.IsAttribute o) ∧
    mid.output = fep.output ++ pieces ++ [.write chunk] ∧ mid.cursorText = none ∧
    match fep.cursorText with
    | none => fep'.output = mid.output
    | some c => drawCursorText mid c.text fep.cursorTextAttr = .ok fep'

/-! ## The child's output -/

theorem redrawnOnce_of_chunk {p : Platform} {fep fep' : Fep loc} {chunk : ChildChunk p}
    (hne : chunk.bytes ≠ []) (h : outputStringFromPty p fep chunk.str chunk.strLen = .ok fep') :
    RedrawnOnce fep chunk.bytes fep' := by
  have hpos : 0 < chunk.strLen := by
    refine Nat.pos_of_ne_zero fun hzero => hne ?_
    rw [ChildChunk.bytes, hzero, List.take_zero]
  obtain ⟨mid, hmid, hrestore⟩ := outputStringFromPty_mid hpos chunk.le h
  obtain ⟨pieces, hpieces, houtput⟩ := applyAttr_output fep fep.attrPty
  have hwritten : mid.output = fep.output ++ pieces ++ [.write chunk.bytes] := by
    rw [hmid.output, ← houtput]
    rfl
  refine ⟨{ mid with cursorText := none }, pieces, hpieces, hwritten, rfl, ?_⟩
  rw [restoreCursorText, hmid.cursorText] at hrestore
  cases hc : fep.cursorText with
  | none =>
    rw [hc] at hrestore
    show fep'.output = mid.output
    rw [Except.ok.inj hrestore]
  | some c =>
    rw [hc] at hrestore
    rw [← hmid.cursorTextAttr]
    exact hrestore

/-! ## One step -/

/-- What a request for the cursor text leaves. -/
theorem outputCursorText_leaves {fep fep' : Fep loc} {text : List UInt8} {attr : FepAttribute}
    (h : outputCursorText fep text attr = .ok fep') :
    fep'.cursorText.map (·.text) = (if text = [] then none else some text) ∧
      (text ≠ [] → fep'.cursorTextAttr = attr) ∧ fep'.statusText = fep.statusText ∧
      fep'.statusTextAttr = fep.statusTextAttr ∧ fep'.cursor = fep.cursor := by
  obtain ⟨mid, hblank, hdraw⟩ := bind_eq_ok.mp h
  have hmid : mid.cursorText = none ∧ mid.statusText = fep.statusText ∧
      mid.statusTextAttr = fep.statusTextAttr ∧ mid.cursor = fep.cursor := by
    cases hc : fep.cursorText with
    | none =>
      rw [blankCursorText, hc] at hblank
      rw [← Except.ok.inj hblank]
      exact ⟨hc, rfl, rfl, rfl⟩
    | some c =>
      have hsent := blankCursorText_sent hc hblank
      exact ⟨hsent.cursorText, hsent.statusText, hsent.statusTextAttr, hsent.cursor⟩
  obtain ⟨htext, hstatus, hstatusAttr, hcursor⟩ := hmid
  by_cases hne : text = []
  · subst hne
    rw [drawCursorText_nil hdraw, htext, if_pos rfl]
    exact ⟨rfl, fun hne => absurd rfl hne, hstatus, hstatusAttr, hcursor⟩
  · have hsent := drawCursorText_sent hne hdraw
    rw [if_neg hne]
    exact ⟨hsent.cursorText, fun _ => hsent.cursorTextAttr, hsent.statusText.trans hstatus,
      hsent.statusTextAttr.trans hstatusAttr, hsent.cursor.trans hcursor⟩

/-- What the child's output leaves. -/
theorem outputStringFromPty_leaves {p : Platform} {fep fep' : Fep loc} {str : List UInt8} {strLen : Nat}
    (hlen : strLen ≤ str.length) (h : outputStringFromPty p fep str strLen = .ok fep') :
    fep'.cursorText.map (·.text) = fep.cursorText.map (·.text) ∧
      fep'.cursorTextAttr = fep.cursorTextAttr ∧ fep'.statusText = fep.statusText ∧
      fep'.statusTextAttr = fep.statusTextAttr ∧
      (fep'.cursor = fep.cursor ∨ fep'.cursor = ⟨-1, -1⟩) := by
  rcases Nat.eq_zero_or_pos strLen with rfl | hpos
  · rw [← Except.ok.inj h]
    exact ⟨rfl, rfl, rfl, rfl, Or.inl rfl⟩
  · obtain ⟨mid, hmid, hnone, hsome⟩ := outputStringFromPty_taken hpos hlen h
    cases hc : fep.cursorText with
    | none =>
      rw [hnone hc, hmid.cursorText, hc]
      exact ⟨rfl, hmid.cursorTextAttr, hmid.statusText, hmid.statusTextAttr, Or.inr hmid.cursor⟩
    | some c =>
      have hsent := hsome c hc
      exact ⟨hsent.cursorText, hsent.cursorTextAttr, hsent.statusText.trans hmid.statusText,
        hsent.statusTextAttr.trans hmid.statusTextAttr, Or.inr (hsent.cursor.trans hmid.cursor)⟩

/-- Output that keeps the texts and the attributes. -/
theorem Tracks.of_kept {s : Overlays loc} {fep : Fep loc} (hs : Tracks s)
    (htext : fep.cursorText.map (·.text) = s.fep.cursorText.map (·.text))
    (hattr : fep.cursorTextAttr = s.fep.cursorTextAttr)
    (hstatus : fep.statusText = s.fep.statusText)
    (hstatusAttr : fep.statusTextAttr = s.fep.statusTextAttr) : Tracks { s with fep := fep } where
  cursorText := htext.trans hs.cursorText
  cursorTextAttr hne := hattr.trans (hs.cursorTextAttr hne)
  statusText := hstatus.trans hs.statusText
  statusTextAttr := hstatusAttr.trans hs.statusTextAttr

/-- **One step**: what was requested is what is kept, exactly if the attribute can be read back. -/
theorem tracks_step_iff {p : Platform} {s s' : Overlays loc} {op : OverlayOp p loc} (hs : Tracks s)
    (h : overlayStep p s op = .ok s') : Tracks s' ↔ KeptReadsBack p op := by
  cases op with
  | cursorText text attr =>
    obtain ⟨fep, hfep, hs'⟩ := bind_eq_ok.mp h
    rw [commandSetCursorText_message] at hfep
    obtain ⟨htext, hattr, hstatus, hstatusAttr, -⟩ := outputCursorText_leaves hfep
    rw [← Except.ok.inj hs', KeptReadsBack]
    constructor
    · intro htracks hne
      rw [← attributeOf_wireAttribute_iff, ← hattr hne]
      exact htracks.cursorTextAttr hne
    · intro hreads
      refine ⟨htext, fun hne => ?_, hstatus.trans hs.statusText, hstatusAttr.trans hs.statusTextAttr⟩
      exact (hattr hne).trans ((attributeOf_wireAttribute_iff p attr).mpr (hreads hne))
  | statusText text attr =>
    obtain ⟨fep, hfep, hs'⟩ := bind_eq_ok.mp h
    rw [commandSetStatusText_message] at hfep
    have hsent := outputStatusText_sent hfep
    rw [← Except.ok.inj hs', KeptReadsBack, ← attributeOf_wireAttribute_iff, ← hsent.statusTextAttr]
    constructor
    · intro htracks
      exact htracks.statusTextAttr
    · intro hreads
      refine ⟨?_, fun hne => ?_, hsent.statusText, hreads⟩
      · rw [hsent.cursorText]
        exact hs.cursorText
      · exact hsent.cursorTextAttr.trans (hs.cursorTextAttr hne)
  | chunk chunk =>
    obtain ⟨fep, hfep, hs'⟩ := bind_eq_ok.mp h
    obtain ⟨htext, hattr, hstatus, hstatusAttr, -⟩ := outputStringFromPty_leaves chunk.le hfep
    rw [← Except.ok.inj hs']
    exact iff_of_true (hs.of_kept htext hattr hstatus hstatusAttr) trivial
  | winch reported =>
    obtain ⟨fep, hfep, hs'⟩ := bind_eq_ok.mp h
    have hsent := handleWinchSignal_sent hfep
    have htext := congrArg (Option.map CursorText.text) hsent.cursorText
    rw [← Except.ok.inj hs']
    exact iff_of_true
      (hs.of_kept htext hsent.cursorTextAttr hsent.statusText hsent.statusTextAttr) trivial

/-! ## No step fails -/

/-- The converted text has a width. -/
def HasWidth (loc : Locale) (text : List UInt8) : Prop :=
  ∀ local', loc.strIconv text = some local' → 0 ≤ strwidth loc local'

/-- What keeps the steps from failing: the column that the server takes the cursor to be in, and what
is known of the texts it shows again. -/
structure Showable (fep : Fep loc) : Prop where
  col : fep.cursor.col ≤ 0
  width : ∀ text, fep.cursorText.map (·.text) = some text → HasWidth loc text
  status : fep.statusText ≠ [] → (loc.strIconv fep.statusText).isSome = true

/-- Output that keeps the texts, and leaves the cursor where it can be. -/
theorem Showable.of_kept {fep fep' : Fep loc} (hs : Showable fep) (hcol : fep'.cursor.col ≤ 0)
    (htext : fep'.cursorText.map (·.text) = fep.cursorText.map (·.text))
    (hstatus : fep'.statusText = fep.statusText) : Showable fep' := by
  refine ⟨hcol, fun text h => hs.width text (htext ▸ h), ?_⟩
  rw [hstatus]
  exact hs.status

theorem sum_map_nonneg {wcs : List Wchar} (h : ∀ wc ∈ wcs, 0 ≤ loc.wcwidth wc) :
    0 ≤ (wcs.map loc.wcwidth).sum := by
  induction wcs with
  | nil => exact Int.le_refl 0
  | cons wc wcs ih =>
    obtain ⟨hwc, hwcs⟩ := List.forall_mem_cons.mp h
    rw [List.map_cons, List.sum_cons]
    exact Int.add_nonneg hwc (ih hwcs)

theorem PrintableText.hasWidth (text : PrintableText loc) : HasWidth loc text.bytes := by
  intro local' hlocal
  have hprintable : ∀ wc ∈ (loc.mbsrtowcs local').1, 0 ≤ loc.wcwidth wc := by
    have h := text.printable
    rwa [Option.get_of_eq_some text.converts hlocal] at h
  have hne : ∀ wc ∈ (loc.mbsrtowcs local').1, loc.wcwidth wc ≠ -1 := by
    intro wc hwc
    have := hprintable wc hwc
    omega
  rw [strwidth, Locale.wcswidth, if_pos hne]
  exact sum_map_nonneg hprintable

theorem exists_blankCursorText {fep : Fep loc} (hcol : fep.cursor.col ≤ 0)
    (hwidth : ∀ text, fep.cursorText.map (·.text) = some text → HasWidth loc text) :
    ∃ fep', blankCursorText fep = .ok fep' := by
  unfold blankCursorText
  cases hc : fep.cursorText with
  | none => exact ⟨fep, rfl⟩
  | some c =>
    have hpos : 0 ≤ strwidth loc ((loc.strIconv c.text).get c.converts) :=
      hwidth c.text (by rw [hc]; rfl) _ (Option.some_get c.converts).symm
    have hleft : ¬ min (strwidth loc ((loc.strIconv c.text).get c.converts))
        (fep.winsize.wsCol.toNat - fep.cursor.col) < 0 := by omega
    exact ⟨_, if_neg hleft⟩

/-- The text requested is shown if it is empty or can be converted. -/
theorem exists_outputCursorText {fep : Fep loc} (hs : Showable fep) {text : List UInt8}
    (hconv : text ≠ [] → (loc.strIconv text).isSome = true) (attr : FepAttribute) :
    ∃ fep', outputCursorText fep text attr = .ok fep' := by
  obtain ⟨mid, hblank⟩ := exists_blankCursorText hs.col hs.width
  have hdraw : ∃ fep', drawCursorText mid text attr = .ok fep' := by
    by_cases hne : text = []
    · exact ⟨mid, by rw [drawCursorText, dif_neg (not_not.mpr hne)]; rfl⟩
    · obtain ⟨fep', hok, -⟩ := drawCursorText_of_converts mid ⟨text, hne, hconv hne⟩ attr
      exact ⟨fep', hok⟩
  obtain ⟨fep', hok⟩ := hdraw
  exact ⟨fep', bind_eq_ok.mpr ⟨mid, hblank, hok⟩⟩

theorem Showable.cursorText {fep fep' : Fep loc} (hs : Showable fep) {text : List UInt8}
    {attr : FepAttribute} (hwidth : HasWidth loc text)
    (h : outputCursorText fep text attr = .ok fep') : Showable fep' := by
  obtain ⟨htext, -, hstatus, -, hcursor⟩ := outputCursorText_leaves h
  refine ⟨?_, fun shown hshown => ?_, ?_⟩
  · rw [hcursor]
    exact hs.col
  · rw [htext] at hshown
    split at hshown
    · exact absurd hshown (by simp)
    · rw [← Option.some.inj hshown]
      exact hwidth
  · rw [hstatus]
    exact hs.status

theorem Showable.statusText {fep fep' : Fep loc} (hs : Showable fep) {text : List UInt8}
    {attr : FepAttribute} (hconv : text ≠ [] → (loc.strIconv text).isSome = true)
    (h : outputStatusText fep text attr = .ok fep') : Showable fep' := by
  have hsent := outputStatusText_sent h
  refine ⟨?_, fun shown hshown => ?_, ?_⟩
  · exact Int.le_of_eq (congrArg FepPoint.col hsent.cursor)
  · rw [hsent.cursorText] at hshown
    exact hs.width shown hshown
  · rw [hsent.statusText]
    exact hconv

theorem Showable.childOutput {p : Platform} {fep fep' : Fep loc} (hs : Showable fep)
    {str : List UInt8} {strLen : Nat} (hlen : strLen ≤ str.length)
    (h : outputStringFromPty p fep str strLen = .ok fep') : Showable fep' := by
  obtain ⟨htext, -, hstatus, -, hcursor⟩ := outputStringFromPty_leaves hlen h
  have hcol : fep'.cursor.col ≤ 0 := by
    rcases hcursor with hcursor | hcursor
    · rw [hcursor]
      exact hs.col
    · rw [hcursor]
      decide
  exact hs.of_kept hcol htext hstatus

theorem Showable.winch {fep fep' : Fep loc} (hs : Showable fep) {reported : Winsize}
    (h : handleWinchSignal fep reported = .ok fep') : Showable fep' := by
  have hsent := handleWinchSignal_sent h
  have hcol : fep'.cursor.col ≤ 0 := by
    rw [hsent.cursor]
    exact hs.col
  exact hs.of_kept hcol (congrArg (Option.map CursorText.text) hsent.cursorText) hsent.statusText

/-- **No step fails**, and the next one will not either. -/
theorem exists_overlayStep {p : Platform} (s : Overlays loc) (op : OverlayOp p loc)
    (hs : Showable s.fep) : ∃ s', overlayStep p s op = .ok s' ∧ Showable s'.fep := by
  cases op with
  | cursorText text attr =>
    obtain ⟨fep, hfep⟩ := exists_outputCursorText hs (fun _ => text.converts)
      (attributeOf p (p.wireAttribute attr))
    exact ⟨_, bind_eq_ok.mpr ⟨fep, (commandSetCursorText_message p s.fep text attr).trans hfep, rfl⟩,
      hs.cursorText text.hasWidth hfep⟩
  | statusText text attr =>
    obtain ⟨fep, hfep⟩ := exists_outputStatusText s.fep (fun _ => text.converts)
      (attributeOf p (p.wireAttribute attr))
    exact ⟨_, bind_eq_ok.mpr ⟨fep, (commandSetStatusText_message p s.fep text attr).trans hfep, rfl⟩,
      hs.statusText (fun _ => text.converts) hfep⟩
  | chunk chunk =>
    obtain ⟨fep, hfep⟩ := exists_outputStringFromPty p s.fep chunk.passes
    exact ⟨_, bind_eq_ok.mpr ⟨fep, hfep, rfl⟩, hs.childOutput chunk.le hfep⟩
  | winch reported =>
    obtain ⟨fep, hfep⟩ := exists_handleWinchSignal s.fep hs.status reported
    exact ⟨_, bind_eq_ok.mpr ⟨fep, hfep, rfl⟩, hs.winch hfep⟩

/-! ## All requests of a run -/

theorem overlaysStart_ok (loc : Locale) (codes : SgrCodes) (size : Winsize) :
    ∃ s, overlaysStart loc codes size = .ok s ∧ Tracks s ∧ Showable s.fep := by
  refine ⟨_, rfl, ⟨rfl, fun hne => absurd rfl hne, rfl, rfl⟩, ⟨Int.le_refl 0, fun text h => ?_, ?_⟩⟩
  · exact absurd (show (none : Option (List UInt8)) = some text from h) (by simp)
  · exact fun hne => absurd rfl hne

theorem showable_of_screenStart {fep : Fep loc} (h : ScreenStart fep) : Showable fep := by
  obtain ⟨codes, size, hinit⟩ := h
  obtain ⟨s, hstart, -, hshowable⟩ := overlaysStart_ok loc codes size
  obtain ⟨fep', hinit', hs⟩ := bind_eq_ok.mp hstart
  obtain rfl := Except.ok.inj (hinit'.symm.trans hinit)
  rwa [← Except.ok.inj hs] at hshowable

theorem exists_screenStart (loc : Locale) : ∃ fep : Fep loc, ScreenStart fep := by
  obtain ⟨s, hstart, -, -⟩ := overlaysStart_ok loc (fun _ => 0) ⟨23, 80⟩
  obtain ⟨fep, hinit, -⟩ := bind_eq_ok.mp hstart
  exact ⟨fep, _, _, hinit⟩

/-- **When the server keeps what was requested**, in every state of a run that nothing but the end of the
requests brings to an end, and shows the cursor text again after the child's output: every attribute
that is kept can be read back. -/
theorem overlays_iff (p : Platform) (codes : SgrCodes) (size : Winsize)
    (ops : List (OverlayOp p loc)) :
    ∃ s : Overlays loc, overlaysStart loc codes size = .ok s ∧
      (∃ t, ops.foldlM (overlayStep p) s = .ok t) ∧
      (((∀ t ∈ okStates (overlayStep p) s ops, Tracks t) ∧
          ∀ x ∈ okSteps (overlayStep p) s ops, ∀ chunk, x.2.1 = .chunk chunk → chunk.bytes ≠ [] →
            RedrawnOnce x.1.fep chunk.bytes x.2.2.fep) ↔
        ∀ op ∈ ops, KeptReadsBack p op) := by
  obtain ⟨s, hstart, htracks, hshowable⟩ := overlaysStart_ok loc codes size
  obtain ⟨t, hrun, -⟩ :=
    exists_foldlM_ok (fun s hs op (_ : op ∈ ops) => exists_overlayStep (p := p) s op hs) hshowable
  have hredrawn : ∀ x ∈ okSteps (overlayStep p) s ops, ∀ chunk, x.2.1 = .chunk chunk →
      chunk.bytes ≠ [] → RedrawnOnce x.1.fep chunk.bytes x.2.2.fep := by
    intro x hx chunk hchunk hne
    have hstep := step_of_mem_okSteps hx
    rw [hchunk] at hstep
    obtain ⟨fep, hfep, hs'⟩ := bind_eq_ok.mp hstep
    rw [← Except.ok.inj hs']
    exact redrawnOnce_of_chunk hne hfep
  have hgood : (∀ x ∈ okSteps (overlayStep p) s ops, KeptReadsBack p x.2.1) ↔
      ∀ op ∈ ops, KeptReadsBack p op := by
    conv_rhs => rw [← map_okSteps hrun]
    exact List.forall_mem_map.symm
  have htracked : (∀ t ∈ okStates (overlayStep p) s ops, Tracks t) ↔
      ∀ x ∈ okSteps (overlayStep p) s ops, KeptReadsBack p x.2.1 :=
    forall_okStates_iff (fun _ _ _ hs hstep => tracks_step_iff hs hstep) htracks
  refine ⟨s, hstart, ⟨t, hrun⟩, ?_⟩
  rw [← hgood, ← htracked]
  exact and_iff_left hredrawn

/-- `a`, in the locale `C`. -/
def textA : PrintableText .c where
  bytes := [0x61]
  no_nul := by simp
  converts := rfl
  printable wc hwc := by
    obtain rfl : wc = 0x61 := List.mem_singleton.mp hwc
    decide

/-- A status text that is to be marked up to its 256th character. -/
theorem not_tracks_endIndex256 : ∃ s : Overlays .c,
    overlaysStart .c (fun _ => 0) ⟨23, 80⟩ = .ok s ∧
      ¬ ∀ t ∈ okStates (overlayStep .x86_64) s [.statusText textA ⟨0, 1, 0, 256⟩], Tracks t := by
  obtain ⟨s, hstart, htracks, hshowable⟩ := overlaysStart_ok .c (fun _ => 0) ⟨23, 80⟩
  refine ⟨s, hstart, fun h => ?_⟩
  obtain ⟨t, hstep, -⟩ := exists_overlayStep (p := .x86_64) s (.statusText textA ⟨0, 1, 0, 256⟩)
    hshowable
  have ht : Tracks t := h t (by
    simp only [okStates, hstep, List.mem_cons, true_or, or_true])
  have hreads := (tracks_step_iff htracks hstep).mp ht
  exact absurd hreads.endIndex (by decide)

end LibFep
