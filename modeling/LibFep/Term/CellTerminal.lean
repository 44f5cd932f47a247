import Mathlib.Algebra.Order.BigOperators.Group.List
import Mathlib.Algebra.Order.Ring.Nat
import LibFep.Lib.CellScreen
import LibFep.Term.TextPieces
import LibFep.Text.Truncate

/-!
# LibFep — what stands on the terminal

A terminal with a screen of cells, a scroll region and one place to save the position of the cursor, and
what the output of the server does to it. The attributes of the cells are left out.

* **`CellTerminal`** — how a terminal takes the bytes that are written to it. What is assumed is that it
  prints a printable character when the last byte of its encoding has come.
* **`CellTerminal.send`** — what it does with a piece of output.
* **`screen_outputStatusText`** — the status text ends up on its own line, and on no other.
* **`screen_drawCursorText`**, **`screen_blankCursorText`** — a cursor text is printed where the cursor is,
  and the cursor goes back.
-/

namespace LibFep

open Lib

variable {loc : Locale} {encode : Wchar → List UInt8} {cols : Nat}

/-- The columns that a character takes. -/
def Locale.width (loc : Locale) (wc : Wchar) : Nat := (loc.charColumns wc).toNat

/-! ## The terminal -/

/-- How a terminal with `cols` columns takes a byte, with the last line of its scroll region. Between two
bytes it keeps what it has got of a character or of a control sequence. -/
structure CellTerminal (loc : Locale) (encode : Wchar → List UInt8) (cols : Nat) where
  Parser : Type
  ground : Parser
  byte : Nat → CellScreen Wchar × Parser → UInt8 → CellScreen Wchar × Parser
  char : ∀ (bottom : Nat) (s : CellScreen Wchar) (wc : Wchar), loc.Printable wc →
    (encode wc).foldl (byte bottom) (s, ground) = (s.put loc.width cols bottom wc, ground)
  space : ∀ (bottom : Nat) (s : CellScreen Wchar),
    byte bottom (s, ground) 0x20 = (s.put loc.width cols bottom 0x20, ground)

variable (t : CellTerminal loc encode cols)

structure CellTerminal.State where
  screen : CellScreen Wchar
  parser : t.Parser
  /-- The last line of the scroll region. All regions of the server start at the first line. -/
  bottom : Nat
  /-- The position that `save_cursor` has stored. -/
  saved : Nat × Nat

variable {t}

/-- The bytes of a write. -/
def CellTerminal.State.write (d : t.State) (bytes : List UInt8) : t.State :=
  let r := bytes.foldl (t.byte d.bottom) (d.screen, d.parser)
  { d with screen := r.1, parser := r.2 }

/-- A piece of output. A new scroll region puts the cursor in the corner. -/
def CellTerminal.send (d : t.State) : TtyOutput → t.State
  | .write bytes => d.write bytes
  | .putp .saveCursor => { d with saved := (d.screen.row, d.screen.col) }
  | .putp .restoreCursor => { d with screen := d.screen.moveTo d.saved.1 d.saved.2 }
  | .putp .clrEol => { d with screen := d.screen.eraseLine }
  | .putp (.cursorAddress row col) => { d with screen := d.screen.moveTo row.toNat col.toNat }
  | .putp (.changeScrollRegion _ last) =>
    { d with screen := d.screen.moveTo 0 0, bottom := last.toNat }
  | .putp .clearScreen => { d with screen := d.screen.erase.moveTo 0 0 }
  | .putp .exitAttributeMode | .putp .cursorInvisible | .putp .cursorNormal | .sgr _ => d

/-- The terminal after the output of the server. -/
def CellTerminal.State.after (d : t.State) (fep : Fep loc) : t.State := fep.output.foldl t.send d

theorem after_of_output (d : t.State) {fep fep' : Fep loc} {pieces : List TtyOutput}
    (h : fep'.output = fep.output ++ pieces) :
    d.after fep' = pieces.foldl CellTerminal.send (d.after fep) := by
  rw [CellTerminal.State.after, h, List.foldl_append, CellTerminal.State.after]

theorem write_append (d : t.State) (bytes bytes' : List UInt8) :
    d.write (bytes ++ bytes') = (d.write bytes).write bytes' := by
  simp only [CellTerminal.State.write, List.foldl_append]

/-- The pieces of a text come to one write. -/
theorem foldl_send_text (d : t.State) {pieces : List TtyOutput}
    (h : ∀ o ∈ pieces, TtyOutput.IsText o) :
    pieces.foldl CellTerminal.send d = d.write (textOf pieces) := by
  induction pieces generalizing d with
  | nil => rfl
  | cons o pieces ih =>
    obtain ⟨ho, hpieces⟩ := List.forall_mem_cons.mp h
    rw [List.foldl_cons, ih _ hpieces]
    match o, ho with
    | .putp .exitAttributeMode, _ => rfl
    | .sgr _, _ => rfl
    | .write bytes, _ => exact (write_append d bytes (textOf pieces)).symm

/-- Printable characters are printed. -/
theorem write_chars {d : t.State} (hground : d.parser = t.ground) {wcs : List Wchar}
    (h : ∀ wc ∈ wcs, loc.Printable wc) :
    d.write (wcs.flatMap encode) =
      { d with screen := d.screen.print loc.width cols d.bottom wcs } := by
  have hbytes : ∀ s : CellScreen Wchar, (wcs.flatMap encode).foldl (t.byte d.bottom) (s, t.ground) =
      (s.print loc.width cols d.bottom wcs, t.ground) := by
    induction wcs with
    | nil => exact fun _ => rfl
    | cons wc wcs ih =>
      obtain ⟨hwc, hwcs⟩ := List.forall_mem_cons.mp h
      intro s
      rw [List.flatMap_cons, List.foldl_append, t.char d.bottom s wc hwc, ih hwcs]
      rfl
  rw [CellTerminal.State.write, hground, hbytes d.screen, ← hground]

theorem write_spaces {d : t.State} (hground : d.parser = t.ground) (n : Nat) :
    d.write (List.replicate n 0x20) =
      { d with screen := d.screen.print loc.width cols d.bottom (List.replicate n 0x20) } := by
  have hbytes : ∀ s : CellScreen Wchar,
      (List.replicate n 0x20).foldl (t.byte d.bottom) (s, t.ground) =
        (s.print loc.width cols d.bottom (List.replicate n 0x20), t.ground) := by
    induction n with
    | zero => exact fun _ => rfl
    | succ n ih =>
      intro s
      rw [List.replicate_succ, List.replicate_succ, List.foldl_cons, t.space d.bottom s, ih]
      rfl
  rw [CellTerminal.State.write, hground, hbytes d.screen, ← hground]

/-! ## The characters of a text -/

/-- All that a text is converted to is printable. -/
def PrintableChars (loc : Locale) (text : List UInt8) : Prop :=
  ∀ local', loc.strIconv text = some local' → ∀ wc ∈ loc.chars local', loc.Printable wc

/-- The characters that are written of a text when `width` columns are left. None are written of a text
that cannot be truncated. -/
def shownChars (loc : Locale) (width : Int) (text : List UInt8) (attr : FepAttribute) :
    List Wchar :=
  (loc.strIconv text).elim [] fun local' =>
    if loc.Valid local' then writtenChars (fit loc.wcwidth width 0 (loc.chars local')) attr else []

theorem shownChars_sublist {text local' : List UInt8} (hlocal : loc.strIconv text = some local')
    (width : Int) (attr : FepAttribute) :
    (shownChars loc width text attr).Sublist (fit loc.wcwidth width 0 (loc.chars local')) := by
  rw [shownChars, hlocal, Option.elim_some]
  split
  · exact writtenChars_sublist _ attr
  · exact List.nil_sublist _

theorem shownChars_nil (hloc : loc.Encoding encode) (width : Int) (attr : FepAttribute) :
    shownChars loc width [] attr = [] := by
  refine List.sublist_nil.mp ((shownChars_sublist hloc.strIconv_nil width attr).trans ?_)
  rw [hloc.chars_nil]
  exact List.Sublist.refl _

theorem printable_of_mem_shownChars {text : List UInt8} (h : PrintableChars loc text) (width : Int)
    (attr : FepAttribute) : ∀ wc ∈ shownChars loc width text attr, loc.Printable wc := by
  intro wc hwc
  cases hlocal : loc.strIconv text with
  | none =>
    rw [shownChars, hlocal] at hwc
    exact absurd hwc List.not_mem_nil
  | some local' =>
    have hfit := (shownChars_sublist hlocal width attr).subset hwc
    exact h local' hlocal wc ((fit_isPrefix loc.wcwidth width 0 _).subset hfit)

theorem columnsOf_width {wcs : List Wchar} (hcols : loc.Columns)
    (h : ∀ wc ∈ wcs, loc.Printable wc) :
    (columnsOf loc.width wcs : Int) = weight loc.wcwidth wcs := by
  induction wcs with
  | nil => rfl
  | cons wc wcs ih =>
    obtain ⟨hwc, hwcs⟩ := List.forall_mem_cons.mp h
    have hpos := wcwidth_nonneg hcols hwc
    rw [columnsOf_cons, weight_cons, ← ih hwcs, Locale.width, charColumns_of_printable hwc]
    omega

/-- What is taken of a text fits. -/
theorem weight_fit_le {α : Type} (w : α → Int) {budget : Int} (hbudget : 0 ≤ budget) (l : List α) :
    weight w (fit w budget 0 l) ≤ budget := by
  by_cases hnil : fit w budget 0 l = []
  · rw [hnil]
    exact hbudget
  · have hall := (prefix_fit_iff w (fit_isPrefix w budget 0 l)).mp (List.prefix_refl _)
    have hself := hall _ (List.prefix_refl _) hnil
    omega

theorem columnsOf_shownChars (hcols : loc.Columns) {text : List UInt8}
    (h : PrintableChars loc text) (n : Nat) (attr : FepAttribute) :
    columnsOf loc.width (shownChars loc n text attr) ≤ n := by
  cases hlocal : loc.strIconv text with
  | none =>
    rw [shownChars, hlocal]
    exact Nat.zero_le n
  | some local' =>
    have hfit := weight_fit_le loc.wcwidth (Int.natCast_nonneg n) (loc.chars local')
    have hprint : ∀ wc ∈ fit loc.wcwidth (n : Int) 0 (loc.chars local'), loc.Printable wc :=
      fun wc hwc => h local' hlocal wc ((fit_isPrefix loc.wcwidth (n : Int) 0 _).subset hwc)
    rw [← columnsOf_width hcols hprint] at hfit
    exact (columnsOf_sublist (shownChars_sublist hlocal n attr)).trans (Int.ofNat_le.mp hfit)

/-- What a text writes. -/
theorem outputStringWithAttribute_shows (hloc : loc.Encoding encode) {fep fep' : Fep loc}
    {str : List UInt8} {width : Int} {attr : FepAttribute}
    (h : outputStringWithAttribute fep str width attr = .ok fep') :
    ∃ pieces, (∀ o ∈ pieces, TtyOutput.IsText o) ∧ fep'.output = fep.output ++ pieces ∧
      textOf pieces = (shownChars loc width str attr).flatMap encode := by
  obtain ⟨pieces, htext, houtput⟩ := (TextSent.outputStringWithAttribute h).output
  refine ⟨pieces, htext, houtput, ?_⟩
  by_cases hne : str = []
  · subst hne
    obtain rfl := Except.ok.inj h
    obtain rfl : pieces = [] := List.self_eq_append_right.mp houtput
    rw [shownChars_nil hloc]
    rfl
  cases hlocal : loc.strIconv str with
  | none =>
    rw [outputStringWithAttribute, if_neg hne, hlocal] at h
    exact absurd h (by simp)
  | some local' =>
    rw [shownChars, hlocal, Option.elim_some]
    split
    · next hlocalValid =>
      obtain ⟨trunc, htrunc, hvalid, hchars⟩ := strtrunc_eq hloc hlocalValid width
      obtain ⟨fep'', pieces', hok, houtput', htext'⟩ :=
        outputStringWithAttribute_text hloc fep hne hlocal htrunc hvalid attr
      obtain rfl := Except.ok.inj (hok.symm.trans h)
      obtain rfl := List.append_cancel_left (houtput.symm.trans houtput')
      rw [htext', hchars]
    · next hinvalid =>
      -- `_fep_strtrunc` returns `NULL`, and only the attributes are written
      have hnone : strtrunc loc local' width = none := strtrunc_of_not_valid hinvalid width
      rw [outputStringWithAttribute, if_neg hne, hlocal] at h
      simp only [hnone] at h
      rw [← Except.ok.inj h] at houtput
      have hattr := textOf_applyAttr { fep with ptybuf := [] } fep.attrTty
      rw [houtput, textOf_append] at hattr
      exact List.append_right_eq_self.mp hattr

/-! ## The overlays -/

/-- The line that a text makes. -/
def textLine (loc : Locale) (cols : Nat) (text : List UInt8) (attr : FepAttribute) : Line Wchar :=
  Line.blank.print loc.width 0 (shownChars loc cols text attr)

/-- A line is erased and written again, and the cursor goes back. -/
theorem send_statusLine {s : t.State} (hground : s.parser = t.ground) (row : Int) {wcs : List Wchar}
    (hprint : ∀ wc ∈ wcs, loc.Printable wc) (hfits : columnsOf loc.width wcs ≤ cols)
    {pieces : List TtyOutput} (htext : ∀ o ∈ pieces, TtyOutput.IsText o)
    (hshows : textOf pieces = wcs.flatMap encode) :
    (TtyOutput.putp .saveCursor :: .putp (.cursorAddress row 0) :: .putp .clrEol ::
        (pieces ++ [.putp .restoreCursor])).foldl CellTerminal.send s =
      { s with
        screen := { s.screen with
          lines := Function.update s.screen.lines row.toNat (Line.blank.print loc.width 0 wcs) }
        saved := (s.screen.row, s.screen.col) } := by
  obtain ⟨erased, herased⟩ : ∃ erased : CellScreen Wchar, erased =
      ⟨Function.update s.screen.lines row.toNat Line.blank, row.toNat, 0⟩ := ⟨_, rfl⟩
  have hbegin : CellTerminal.send (CellTerminal.send (CellTerminal.send s (.putp .saveCursor))
      (.putp (.cursorAddress row 0))) (.putp .clrEol) =
        { s with screen := erased, saved := (s.screen.row, s.screen.col) } := by
    rw [herased]
    rfl
  have hfits' : erased.col + columnsOf loc.width wcs ≤ cols := by
    rw [herased]
    exact (Nat.zero_add _).trans_le hfits
  rw [List.foldl_cons, List.foldl_cons, List.foldl_cons, hbegin, List.foldl_append,
    foldl_send_text _ htext, hshows, write_chars (by exact hground) hprint,
    CellScreen.print_eq_of_fits erased wcs hfits', herased]
  simp [CellTerminal.send, CellScreen.moveTo]

/-- **The status text** ends up on its line, with nothing else on it. All other lines and the cursor stay
as they are. -/
theorem screen_outputStatusText (hloc : loc.Encoding encode) (hcols : loc.Columns) {d : t.State}
    {fep fep' : Fep loc} {text : List UInt8} {attr : FepAttribute}
    (hsize : fep.winsize.wsCol.toNat = cols) (hprint : PrintableChars loc text)
    (hground : (d.after fep).parser = t.ground) (h : outputStatusText fep text attr = .ok fep') :
    d.after fep' =
      { d.after fep with
        screen := { (d.after fep).screen with
          lines := Function.update (d.after fep).screen.lines fep.winsize.wsRow.toNat
            (textLine loc cols text attr) }
        saved := ((d.after fep).screen.row, (d.after fep).screen.col) } := by
  obtain ⟨fep'', hok, hfep'⟩ := bind_eq_ok.mp h
  obtain ⟨pieces, htext, houtput, hshows⟩ := outputStringWithAttribute_shows hloc hok
  have houtput : fep'.output = fep.output ++ (.putp .saveCursor ::
      .putp (.cursorAddress fep.winsize.wsRow.toNat 0) :: .putp .clrEol ::
        (pieces ++ [.putp .restoreCursor])) := by
    rw [← Except.ok.inj hfep']
    show fep''.output ++ _ = _
    rw [houtput]
    simp [outputCursorAddress, putp]
  have hshows : textOf pieces = (shownChars loc cols text attr).flatMap encode := by
    rw [hshows, ← hsize]
    rfl
  rw [after_of_output d houtput]
  exact send_statusLine hground _ (printable_of_mem_shownChars hprint cols attr)
    (columnsOf_shownChars hcols hprint cols attr) htext hshows

/-- The screen after a text at the cursor. -/
def CellTerminal.State.overlaid (d : t.State) (wcs : List Wchar) : t.State :=
  { d with
    screen := (d.screen.print loc.width cols d.bottom wcs).moveTo d.screen.row d.screen.col
    saved := (d.screen.row, d.screen.col) }

theorem screen_drawCursorText (hloc : loc.Encoding encode) {d : t.State} {fep fep' : Fep loc}
    {text : List UInt8} {attr : FepAttribute} (hne : text ≠ []) (hprint : PrintableChars loc text)
    (hground : (d.after fep).parser = t.ground) (h : drawCursorText fep text attr = .ok fep') :
    ∃ wcs, d.after fep' = (d.after fep).overlaid wcs := by
  unfold drawCursorText at h
  rw [dif_pos hne] at h
  split at h
  · obtain ⟨fep'', hok, hfep'⟩ := bind_eq_ok.mp h
    obtain ⟨pieces, htext, houtput, hshows⟩ := outputStringWithAttribute_shows hloc hok
    have houtput : fep'.output = fep.output ++ (.putp .saveCursor ::
        (pieces ++ [.putp .restoreCursor])) := by
      rw [← Except.ok.inj hfep']
      show fep''.output ++ _ = _
      rw [houtput]
      simp [outputSaveCursor, putp]
    rw [after_of_output d houtput, List.foldl_cons, List.foldl_append, foldl_send_text _ htext, hshows,
      write_chars (by exact hground) (printable_of_mem_shownChars hprint _ attr)]
    exact ⟨_, rfl⟩
  · exact absurd h (by simp)

theorem screen_blankCursorText {d : t.State} {fep fep' : Fep loc} {c : CursorText loc}
    (hc : fep.cursorText = some c) (hground : (d.after fep).parser = t.ground)
    (h : blankCursorText fep = .ok fep') : ∃ wcs, d.after fep' = (d.after fep).overlaid wcs := by
  unfold blankCursorText at h
  rw [hc] at h
  dsimp only at h
  split at h
  · exact absurd h (by simp)
  · obtain ⟨n, hn⟩ : ∃ n, fep'.output = fep.output ++ [.putp .saveCursor,
        .write (List.replicate n 0x20), .putp .restoreCursor] := by
      rw [← Except.ok.inj h]
      exact ⟨_, by simp [outputRestoreCursor, writeTty, outputSaveCursor, putp]; rfl⟩
    refine ⟨List.replicate n 0x20, ?_⟩
    obtain ⟨stored, hstored⟩ : ∃ stored, stored =
        CellTerminal.send (d.after fep) (.putp .saveCursor) := ⟨_, rfl⟩
    have hspaces : CellTerminal.send stored (.write (List.replicate n 0x20)) = _ :=
      write_spaces (by rw [hstored]; exact hground) n
    rw [after_of_output d hn, List.foldl_cons, List.foldl_cons, ← hstored, hspaces, hstored]
    rfl

end LibFep
