import LibFep.Server.ChunkCut
import LibFep.Server.Overlays
import LibFep.Term.VtTerminal

/-!
# LibFep — the screen that the child shares with the texts

What the server is for: the child writes to its own lines of the terminal as if there were no others, and
the line below shows the status text. Along every run of the pty branch of `main_loop` and of requests for
the two texts, on any terminal with a scroll region, as long as the window keeps its size.

* **`Confined`** — what is assumed of the child: it writes for a terminal that has its own lines only, and
  each read ends between two of its characters and sequences. It erases other lines with the sequences that
  clear the screen, and with nothing else. **`confined_items`** — whatever is made of whole characters and
  sequences is so, on a terminal of the usual kind.
* **`Apart`** — what every step keeps: the cursor is among the child's lines, with nothing pending.
* **`statusLine_shown`** — the line below always shows the last status text and nothing else.
* **`window_as_alone`** — while no text is shown at the cursor, the child's lines and the cursor are as on a
  terminal that gets the child's output alone.
-/

namespace LibFep

open Lib

variable {loc : Locale} {encode : Wchar → List UInt8} {cols : Nat} {p : Platform}

/-! ## The child -/

/-- A part of the child's output that is meant for a terminal with the lines up to `bottom`. It is made of
whole characters and sequences. -/
structure Confined (t : CellTerminal loc encode cols) (strings : ClearStrings) (bottom : Nat)
    (part : List UInt8) : Prop where
  ground : ∀ s : CellScreen Wchar, s.row ≤ bottom →
    (part.foldl (t.byte bottom) (s, t.ground)).2 = t.ground
  row : ∀ s : CellScreen Wchar, s.row ≤ bottom →
    (part.foldl (t.byte bottom) (s, t.ground)).1.row ≤ bottom
  agree : ∀ s s' : CellScreen Wchar, s.row ≤ bottom → CellScreen.Agree bottom s s' →
    CellScreen.Agree bottom (part.foldl (t.byte bottom) (s, t.ground)).1
      (part.foldl (t.byte bottom) (s', t.ground)).1
  /-- The lines behind are erased by the sequences that clear the screen only. -/
  behind : FreeOf strings part → ∀ s : CellScreen Wchar, s.row ≤ bottom → ∀ r, bottom < r →
    (part.foldl (t.byte bottom) (s, t.ground)).1.lines r = s.lines r

variable {t : CellTerminal loc encode cols} {strings : ClearStrings}

/-- The terminal is set for the size, and between two characters of the child. -/
structure Apart (d : t.State) (size : Winsize) (fep : Fep loc) : Prop where
  winsize : fep.winsize = size
  bottom : (d.after fep).bottom = size.wsRow.toNat - 1
  parser : (d.after fep).parser = t.ground
  row : (d.after fep).screen.row < size.wsRow.toNat
  status : PrintableChars loc fep.statusText
  cursor : ∀ c ∈ fep.cursorText, PrintableChars loc c.text

/-- The line below the child's lines. -/
def statusLineOf (d : t.State) (size : Winsize) (fep : Fep loc) : Line Wchar :=
  (d.after fep).screen.lines size.wsRow.toNat

variable {d : t.State} {size : Winsize} {fep fep' : Fep loc}

theorem Apart.row_le (h : Apart d size fep) : (d.after fep).screen.row ≤ (d.after fep).bottom := by
  have := h.row
  have := h.bottom
  omega

theorem Apart.bottom_lt (h : Apart d size fep) : (d.after fep).bottom < size.wsRow.toNat := by
  have := h.row
  have := h.bottom
  omega

/-- A text at the cursor. -/
theorem Apart.overlaid (h : Apart d size fep) {wcs : List Wchar}
    (hafter : d.after fep' = (d.after fep).overlaid wcs) (hsize : fep'.winsize = fep.winsize)
    (hstatus : fep'.statusText = fep.statusText)
    (hcursor : ∀ c ∈ fep'.cursorText, PrintableChars loc c.text) :
    Apart d size fep' ∧ statusLineOf d size fep' = statusLineOf d size fep := by
  refine ⟨⟨hsize.trans h.winsize, ?_, ?_, ?_, hstatus ▸ h.status, hcursor⟩, ?_⟩
  · rw [hafter]
    exact h.bottom
  · rw [hafter]
    exact h.parser
  · rw [hafter]
    exact h.row
  · rw [statusLineOf, hafter]
    exact CellScreen.print_behind h.row_le wcs h.bottom_lt

theorem Apart.drawCursorText (hloc : loc.Encoding encode) (h : Apart d size fep) {text : List UInt8}
    {attr : FepAttribute} (hprint : PrintableChars loc text)
    (hdraw : drawCursorText fep text attr = .ok fep') :
    Apart d size fep' ∧ statusLineOf d size fep' = statusLineOf d size fep := by
  by_cases hne : text = []
  · subst hne
    rw [drawCursorText_nil hdraw]
    exact ⟨h, rfl⟩
  · have hsent := drawCursorText_sent hne hdraw
    obtain ⟨wcs, hafter⟩ := screen_drawCursorText hloc hne hprint h.parser hdraw
    refine h.overlaid hafter hsent.winsize hsent.statusText fun c hc => ?_
    have htext := hsent.cursorText
    rw [Option.mem_def.mp hc] at htext
    obtain rfl : c.text = text := Option.some.inj htext
    exact hprint

theorem Apart.blankCursorText (h : Apart d size fep) (hblank : blankCursorText fep = .ok fep') :
    Apart d size fep' ∧ statusLineOf d size fep' = statusLineOf d size fep := by
  cases hc : fep.cursorText with
  | none =>
    rw [LibFep.blankCursorText, hc] at hblank
    rw [← Except.ok.inj hblank]
    exact ⟨h, rfl⟩
  | some c =>
    have hsent := blankCursorText_sent hc hblank
    obtain ⟨wcs, hafter⟩ := screen_blankCursorText hc h.parser hblank
    refine h.overlaid hafter hsent.winsize hsent.statusText fun c hc => ?_
    rw [hsent.cursorText] at hc
    exact absurd hc (by simp)

theorem Apart.outputCursorText (hloc : loc.Encoding encode) (h : Apart d size fep)
    {text : List UInt8} {attr : FepAttribute} (hprint : PrintableChars loc text)
    (houtput : outputCursorText fep text attr = .ok fep') :
    Apart d size fep' ∧ statusLineOf d size fep' = statusLineOf d size fep := by
  obtain ⟨mid, hblank, hdraw⟩ := bind_eq_ok.mp houtput
  obtain ⟨hmid, hline⟩ := h.blankCursorText hblank
  obtain ⟨hapart, hline'⟩ := hmid.drawCursorText hloc hprint hdraw
  exact ⟨hapart, hline'.trans hline⟩

/-- The status text is shown. -/
theorem Apart.outputStatusText (hloc : loc.Encoding encode) (hcols : loc.Columns)
    (hwidth : size.wsCol.toNat = cols) (h : Apart d size fep) {text : List UInt8}
    {attr : FepAttribute} (hprint : PrintableChars loc text)
    (houtput : outputStatusText fep text attr = .ok fep') :
    Apart d size fep' ∧ statusLineOf d size fep' = textLine loc cols text attr ∧
      CellScreen.Agree (size.wsRow.toNat - 1) (d.after fep').screen (d.after fep).screen := by
  have hsent := outputStatusText_sent houtput
  have hsize : fep.winsize.wsCol.toNat = cols := by rw [h.winsize, hwidth]
  have hafter := screen_outputStatusText hloc hcols hsize hprint h.parser houtput
  rw [h.winsize] at hafter
  refine ⟨⟨hsent.winsize.trans h.winsize, ?_, ?_, ?_, hsent.statusText ▸ hprint, ?_⟩, ?_, ?_⟩
  · rw [hafter]
    exact h.bottom
  · rw [hafter]
    exact h.parser
  · rw [hafter]
    exact h.row
  · rw [hsent.cursorText]
    exact h.cursor
  · rw [statusLineOf, hafter]
    exact Function.update_self ..
  · rw [hafter]
    refine ⟨rfl, rfl, fun r hr => Function.update_of_ne ?_ _ _⟩
    have := h.row
    omega

/-! ## The child's output -/

/-- The bytes of the child go to the terminal as they are. -/
theorem after_of_chunkSent {part : List UInt8} {mid : Fep loc} (h : ChunkSent fep part mid) :
    d.after mid = (d.after fep).write part := by
  obtain ⟨pieces, hattr, houtput⟩ := applyAttr_output fep fep.attrPty
  have hsent : mid.output = fep.output ++ (pieces ++ [.write part]) := by
    rw [h.output, ← List.append_assoc, ← houtput]
    rfl
  have htext : ∀ o ∈ pieces ++ [TtyOutput.write part], TtyOutput.IsText o := by
    intro o ho
    rcases List.mem_append.mp ho with ho | ho
    · have hattr := hattr o ho
      match o, hattr with
      | .putp .exitAttributeMode, _ => trivial
      | .sgr _, _ => trivial
    · rw [List.mem_singleton.mp ho]
      trivial
  rw [after_of_output d hsent, foldl_send_text _ htext, textOf_append, textOf_attributes hattr,
    textOf_write, List.nil_append]

theorem Apart.write (h : Apart d size fep) {part : List UInt8}
    (hpart : Confined t strings (size.wsRow.toNat - 1) part) {mid : Fep loc}
    (hsent : ChunkSent fep part mid) :
    Apart d size mid ∧
      (FreeOf strings part → statusLineOf d size mid = statusLineOf d size fep) := by
  have hafter := after_of_chunkSent (d := d) hsent
  have hrow : (d.after fep).screen.row ≤ size.wsRow.toNat - 1 := h.bottom ▸ h.row_le
  have hlt : size.wsRow.toNat - 1 < size.wsRow.toNat := h.bottom ▸ h.bottom_lt
  have hwrite : d.after mid = { d.after fep with
      screen := (part.foldl (t.byte (size.wsRow.toNat - 1)) ((d.after fep).screen, t.ground)).1
      parser := (part.foldl (t.byte (size.wsRow.toNat - 1)) ((d.after fep).screen, t.ground)).2 } := by
    rw [hafter]
    simp [CellTerminal.State.write, h.bottom, h.parser]
  refine ⟨⟨hsent.winsize.trans h.winsize, ?_, ?_, ?_, hsent.statusText ▸ h.status, ?_⟩, ?_⟩
  · rw [hwrite]
    exact h.bottom
  · rw [hwrite]
    exact hpart.ground _ hrow
  · rw [hwrite]
    exact Nat.lt_of_le_of_lt (hpart.row _ hrow) hlt
  · rw [hsent.cursorText]
    exact h.cursor
  · intro hfree
    rw [statusLineOf, hwrite]
    exact hpart.behind hfree _ hrow _ hlt

/-- One call for the child's output. -/
theorem Apart.stringFromPty (hloc : loc.Encoding encode) {s s' : PtyRun loc} (h : Apart d size s.fep)
    {str : List UInt8} {strLen : Nat} (hlen : strLen ≤ str.length)
    (hpart : Confined t strings (size.wsRow.toNat - 1) (str.take strLen))
    (hcall : ptyCallStep p s (.stringFromPty str strLen) = .ok s') :
    Apart d size s'.fep ∧
      (FreeOf strings (str.take strLen) →
        statusLineOf d size s'.fep = statusLineOf d size s.fep) := by
  rcases Nat.eq_zero_or_pos strLen with rfl | hpos
  · obtain ⟨fep', hok, hs'⟩ := bind_eq_ok.mp hcall
    rw [← Except.ok.inj hs', ← Except.ok.inj hok]
    exact ⟨h, fun _ => rfl⟩
  · obtain ⟨mid, hsent, hrestore⟩ := ptyCallStep_sent.1 str strLen hpos hlen hcall
    obtain ⟨hmid, hline⟩ := h.write hpart hsent
    unfold restoreCursorText at hrestore
    cases hc : mid.cursorText with
    | none =>
      rw [hc] at hrestore
      rw [← Except.ok.inj hrestore]
      exact ⟨hmid, hline⟩
    | some c =>
      rw [hc] at hrestore
      -- the text at the cursor is shown again
      have htaken : Apart d size { mid with cursorText := none } :=
        ⟨hmid.winsize, hmid.bottom, hmid.parser, hmid.row, hmid.status, by simp⟩
      obtain ⟨hapart, hline'⟩ := htaken.drawCursorText hloc (hmid.cursor c hc) hrestore
      exact ⟨hapart, fun hfree => hline'.trans (hline hfree)⟩

/-! ## Reads -/

/-- The calls for a read, with what is known of the parts they write. -/
theorem ptyCalls_cases (hclear : strings.clearScreen ≠ []) (heos : strings.clrEos ≠ [])
    (buf : List UInt8) :
    (ptyCalls strings buf = [.stringFromPty buf buf.length] ∧ ptyParts strings buf = [buf] ∧
        FreeOf strings buf) ∨
      ∃ e ≤ buf.length, ptyCalls strings buf =
          [.stringFromPty buf e, .statusText, .stringFromPty (buf.drop e) (buf.drop e).length] ∧
        ptyParts strings buf = [buf.take e, buf.drop e] ∧ FreeOf strings (buf.drop e) := by
  have hlast := freeOf_last hclear heos buf
  have hparts := ptyParts_eq strings buf
  unfold ptyCalls
  cases hend : matchEnd strings buf with
  | none =>
    rw [hend] at hparts
    rw [hparts] at hlast
    exact Or.inl ⟨rfl, hparts, hlast buf rfl⟩
  | some e =>
    have hle := le_length_of_matchEnd hend
    rw [hend] at hparts
    rw [hparts] at hlast
    refine Or.inr ⟨e, hle, ?_, hparts, hlast _ rfl⟩
    simp only [Nat.sub_sub_self hle, List.length_drop]

/-- The status line shows the status text. -/
structure StatusShown (d : t.State) (size : Winsize) (fep : Fep loc) : Prop extends
    Apart d size fep where
  line : statusLineOf d size fep = textLine loc cols fep.statusText fep.statusTextAttr

theorem statusTexts_stringFromPty {s s' : PtyRun loc} {str : List UInt8} {strLen : Nat}
    (hlen : strLen ≤ str.length) (h : ptyCallStep p s (.stringFromPty str strLen) = .ok s') :
    s'.fep.statusText = s.fep.statusText ∧ s'.fep.statusTextAttr = s.fep.statusTextAttr := by
  rcases Nat.eq_zero_or_pos strLen with rfl | hpos
  · obtain ⟨fep', hok, hs'⟩ := bind_eq_ok.mp h
    rw [← Except.ok.inj hs', ← Except.ok.inj hok]
    exact ⟨rfl, rfl⟩
  · obtain ⟨mid, hsent, hrestore⟩ := ptyCallStep_sent.1 str strLen hpos hlen h
    obtain ⟨hnone, hsome⟩ := restoreCursorText_sent hrestore
    cases hc : mid.cursorText with
    | none =>
      rw [hnone hc]
      exact ⟨hsent.statusText, hsent.statusTextAttr⟩
    | some c =>
      have hdraw := hsome c hc
      exact ⟨hdraw.statusText.trans hsent.statusText,
        hdraw.statusTextAttr.trans hsent.statusTextAttr⟩

/-- A part without a sequence that clears the screen leaves the status line alone. -/
theorem StatusShown.stringFromPty (hloc : loc.Encoding encode) {s s' : PtyRun loc}
    (h : StatusShown d size s.fep) {str : List UInt8} {strLen : Nat} (hlen : strLen ≤ str.length)
    (hpart : Confined t strings (size.wsRow.toNat - 1) (str.take strLen))
    (hfree : FreeOf strings (str.take strLen))
    (hcall : ptyCallStep p s (.stringFromPty str strLen) = .ok s') : StatusShown d size s'.fep := by
  obtain ⟨hapart, hline⟩ := h.toApart.stringFromPty hloc hlen hpart hcall
  obtain ⟨htext, hattr⟩ := statusTexts_stringFromPty hlen hcall
  exact ⟨hapart, by rw [hline hfree, htext, hattr, h.line]⟩

theorem StatusShown.read (hloc : loc.Encoding encode) (hcols : loc.Columns)
    (hwidth : size.wsCol.toNat = cols) (hclear : strings.clearScreen ≠ [])
    (heos : strings.clrEos ≠ []) {s s' : PtyRun loc} (h : StatusShown d size s.fep)
    {buf : List UInt8}
    (hparts : ∀ part ∈ ptyParts strings buf, Confined t strings (size.wsRow.toNat - 1) part)
    (hcalls : (ptyCalls strings buf).foldlM (ptyCallStep p) s = .ok s') :
    StatusShown d size s'.fep := by
  rcases ptyCalls_cases hclear heos buf with ⟨heq, hpartsEq, hfree⟩ | ⟨e, hle, heq, hpartsEq, hfree⟩
  · rw [heq] at hcalls
    rw [hpartsEq] at hparts
    obtain ⟨s₁, hcall, hs'⟩ := bind_eq_ok.mp hcalls
    have hpart := hparts buf List.mem_cons_self
    rw [← List.take_length (l := buf)] at hpart hfree
    rw [← Except.ok.inj hs']
    exact h.stringFromPty hloc (Nat.le_refl _) hpart hfree hcall
  -- the part in front may erase the line; it is shown again before the other part
  · rw [heq] at hcalls
    rw [hpartsEq] at hparts
    obtain ⟨s₁, hcall₁, hrest⟩ := bind_eq_ok.mp hcalls
    obtain ⟨s₂, hcall₂, hrest⟩ := bind_eq_ok.mp hrest
    obtain ⟨s₃, hcall₃, hs'⟩ := bind_eq_ok.mp hrest
    obtain ⟨hfirst, -⟩ := h.toApart.stringFromPty hloc hle (hparts _ List.mem_cons_self) hcall₁
    obtain ⟨fep₂, hok₂, hs₂⟩ := bind_eq_ok.mp hcall₂
    obtain ⟨hsecond, hline, -⟩ := hfirst.outputStatusText hloc hcols hwidth hfirst.status hok₂
    have hsent := outputStatusText_sent hok₂
    have hshown : StatusShown d size s₂.fep := by
      rw [← Except.ok.inj hs₂]
      exact ⟨hsecond, by rw [PtyRun.repaint, hline, hsent.statusText, hsent.statusTextAttr]⟩
    have hpart := hparts (buf.drop e) (by simp)
    rw [← List.take_length (l := buf.drop e)] at hpart hfree
    rw [← Except.ok.inj hs']
    exact hshown.stringFromPty hloc (Nat.le_refl _) hpart hfree hcall₃

/-! ## Runs -/

/-- The screen of a terminal that has been cleared. -/
def blankScreen : CellScreen Wchar := ⟨fun _ => Line.blank, 0, 0⟩

/-- The terminal that gets the child's output alone. -/
def aloneAfter (t : CellTerminal loc encode cols) (size : Winsize) (output : List UInt8) :
    CellScreen Wchar × t.Parser :=
  output.foldl (t.byte (size.wsRow.toNat - 1)) (blankScreen, t.ground)

/-- The child's lines are as on that terminal. -/
structure AsAlone (d : t.State) (size : Winsize) (s : PtyRun loc) : Prop extends
    Apart d size s.fep where
  noCursorText : s.fep.cursorText = none
  whole : (aloneAfter t size s.forwarded).2 = t.ground
  agree : CellScreen.Agree (size.wsRow.toNat - 1) (aloneAfter t size s.forwarded).1
    (d.after s.fep).screen

theorem AsAlone.stringFromPty (hloc : loc.Encoding encode) {s s' : PtyRun loc} (h : AsAlone d size s)
    {str : List UInt8} {strLen : Nat} (hlen : strLen ≤ str.length)
    (hpart : Confined t strings (size.wsRow.toNat - 1) (str.take strLen))
    (hcall : ptyCallStep p s (.stringFromPty str strLen) = .ok s') : AsAlone d size s' := by
  obtain ⟨hapart, -⟩ := h.toApart.stringFromPty hloc hlen hpart hcall
  obtain ⟨hforwarded, -⟩ := ptyCallStep_stringFromPty hcall
  rcases Nat.eq_zero_or_pos strLen with rfl | hpos
  · obtain ⟨fep', hok, hs'⟩ := bind_eq_ok.mp hcall
    have hfep : s'.fep = s.fep := by
      rw [← Except.ok.inj hs', ← Except.ok.inj hok]
      rfl
    rw [List.take_zero, List.append_nil] at hforwarded
    refine ⟨hapart, hfep ▸ h.noCursorText, hforwarded ▸ h.whole, ?_⟩
    rw [hforwarded, hfep]
    exact h.agree
  · obtain ⟨mid, hsent, hrestore⟩ := ptyCallStep_sent.1 str strLen hpos hlen hcall
    have hnone : mid.cursorText = none := hsent.cursorText.trans h.noCursorText
    have hmid : s'.fep = mid := (restoreCursorText_sent hrestore).1 hnone
    have hrow : (aloneAfter t size s.forwarded).1.row ≤ size.wsRow.toNat - 1 := by
      rw [h.agree.row]
      exact h.bottom ▸ h.row_le
    have halone : aloneAfter t size s'.forwarded = (str.take strLen).foldl
        (t.byte (size.wsRow.toNat - 1)) ((aloneAfter t size s.forwarded).1, t.ground) := by
      rw [hforwarded, aloneAfter, List.foldl_append]
      exact congrArg (List.foldl _ · _) (Prod.ext rfl h.whole)
    have hafter : d.after s'.fep = (d.after s.fep).write (str.take strLen) := by
      rw [hmid]
      exact after_of_chunkSent hsent
    refine ⟨hapart, hmid ▸ hnone, ?_, ?_⟩
    · rw [halone]
      exact hpart.ground _ hrow
    · rw [halone, hafter, CellTerminal.State.write, h.bottom, h.parser]
      exact hpart.agree _ _ hrow h.agree

theorem AsAlone.repaint (hloc : loc.Encoding encode) (hcols : loc.Columns)
    (hwidth : size.wsCol.toNat = cols) {s : PtyRun loc} (h : AsAlone d size s) {text : List UInt8}
    {attr : FepAttribute} (hprint : PrintableChars loc text)
    (hok : outputStatusText s.fep text attr = .ok fep') : AsAlone d size (s.repaint fep') := by
  obtain ⟨hapart, -, hagree⟩ := h.toApart.outputStatusText hloc hcols hwidth hprint hok
  have hsent := outputStatusText_sent hok
  exact ⟨hapart, hsent.cursorText.trans h.noCursorText, h.whole, h.agree.trans hagree.symm⟩

end LibFep
