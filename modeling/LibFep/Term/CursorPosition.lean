import LibFep.Lib.Runs
import LibFep.Term.Sent
import LibFep.Term.ChildOutput

/-!
# LibFep — the cursor of the terminal

Where the overlays leave the cursor, on a terminal with one place to save its position. The status
text saves the position and restores it; the screen size does so too, around the status text.

* **`Terminal.send`** — what the terminal does with a piece of output.
* **`Terminal.bracket`** — what saves the position first and restores it last keeps it.
* **`pos_outputSetScreenSize`** — the inner of two such pairs leaves the home position in the place
  that the outer one restores from.
* **`keepsCursor_iff`** — the runs in which all overlays keep the cursor.
-/

namespace LibFep

open Lib

variable {loc : Locale} {Pos : Type}

/-! ## The terminal -/

/-- A terminal, as far as the position of its cursor is concerned. Where text leaves the cursor may
depend on all that was sent before. -/
structure Terminal (Pos : Type) where
  home : Pos
  address : Int → Int → Pos
  print : List TtyOutput → Pos → List UInt8 → Pos

structure Screen (Pos : Type) where
  sent : List TtyOutput
  cursor : Pos
  /-- The position that `save_cursor` has stored. -/
  saved : Pos

def Terminal.send (t : Terminal Pos) (s : Screen Pos) (o : TtyOutput) : Screen Pos where
  sent := s.sent ++ [o]
  cursor :=
    match o with
    | .putp .restoreCursor => s.saved
    | .putp (.cursorAddress row col) => t.address row col
    | .putp (.changeScrollRegion _ _) | .putp .clearScreen => t.home
    | .write bytes => t.print s.sent s.cursor bytes
    | .putp .saveCursor | .putp .exitAttributeMode | .putp .clrEol | .putp .cursorInvisible
    | .putp .cursorNormal | .sgr _ => s.cursor
  saved := if o = .putp .saveCursor then s.cursor else s.saved

/-- The screen after the output of the server. -/
def Terminal.screen (t : Terminal Pos) (s : Screen Pos) (fep : Fep loc) : Screen Pos :=
  fep.output.foldl t.send s

theorem Terminal.screen_of_output (t : Terminal Pos) (s : Screen Pos) {fep fep' : Fep loc}
    {pieces : List TtyOutput} (h : fep'.output = fep.output ++ pieces) :
    t.screen s fep' = pieces.foldl t.send (t.screen s fep) := by
  rw [Terminal.screen, h, List.foldl_append, Terminal.screen]

/-! ## Saving and restoring -/

theorem Terminal.saved_foldl (t : Terminal Pos) (s : Screen Pos) {pieces : List TtyOutput}
    (h : ∀ o ∈ pieces, o ≠ .putp .saveCursor) : (pieces.foldl t.send s).saved = s.saved := by
  induction pieces generalizing s with
  | nil => rfl
  | cons o pieces ih =>
    obtain ⟨ho, hrest⟩ := List.forall_mem_cons.mp h
    rw [List.foldl_cons, ih (t.send s o) hrest]
    exact if_neg ho

theorem TtyOutput.IsText.ne_saveCursor {o : TtyOutput} (h : o.IsText) : o ≠ .putp .saveCursor := by
  rintro rfl
  exact h

/-- **A pair of `save_cursor` and `restore_cursor`** with no other in between keeps the cursor, and
leaves its position in the place to save it. -/
theorem Terminal.bracket (t : Terminal Pos) (s : Screen Pos) {pieces : List TtyOutput}
    (h : ∀ o ∈ pieces, o ≠ .putp .saveCursor) :
    ((.putp .saveCursor :: (pieces ++ [.putp .restoreCursor])).foldl t.send s).cursor = s.cursor ∧
      ((.putp .saveCursor :: (pieces ++ [.putp .restoreCursor])).foldl t.send s).saved =
        s.cursor := by
  have hsaved : (pieces.foldl t.send (t.send s (.putp .saveCursor))).saved = s.cursor :=
    t.saved_foldl _ h
  rw [List.foldl_cons, List.foldl_append]
  exact ⟨hsaved, hsaved⟩

/-! ## The overlays -/

/-- What shows the status text has no `save_cursor` of its own. -/
theorem statusLine_ne_saveCursor (fep : Fep loc) {pieces : List TtyOutput}
    (h : ∀ o ∈ pieces, TtyOutput.IsText o) :
    ∀ o ∈ .putp (.cursorAddress fep.winsize.wsRow.toNat 0) :: .putp .clrEol :: pieces,
      o ≠ .putp .saveCursor := by
  simp only [List.forall_mem_cons]
  exact ⟨by simp, by simp, fun o ho => (h o ho).ne_saveCursor⟩

theorem cursor_outputStatusText (t : Terminal Pos) (s : Screen Pos) {fep fep' : Fep loc}
    {text : List UInt8} {attr : FepAttribute} (h : outputStatusText fep text attr = .ok fep') :
    (t.screen s fep').cursor = (t.screen s fep).cursor := by
  obtain ⟨pieces, htext, houtput⟩ := (outputStatusText_sent h).output
  rw [t.screen_of_output s houtput]
  exact (t.bracket _ (statusLine_ne_saveCursor fep htext)).1

theorem cursor_drawCursorText (t : Terminal Pos) (s : Screen Pos) {fep fep' : Fep loc}
    {text : List UInt8} {attr : FepAttribute} (h : DrawSent fep text attr fep') :
    (t.screen s fep').cursor = (t.screen s fep).cursor := by
  obtain ⟨pieces, htext, houtput⟩ := h.output
  rw [t.screen_of_output s houtput]
  exact (t.bracket _ fun o ho => (htext o ho).ne_saveCursor).1

theorem cursor_blankCursorText (t : Terminal Pos) (s : Screen Pos) {fep fep' : Fep loc}
    (h : blankCursorText fep = .ok fep') :
    (t.screen s fep').cursor = (t.screen s fep).cursor := by
  cases hc : fep.cursorText with
  | none =>
    rw [blankCursorText, hc] at h
    rw [Except.ok.inj h]
  | some c =>
    obtain ⟨spaces, houtput⟩ := (blankCursorText_sent hc h).output
    rw [t.screen_of_output s houtput]
    have hspaces : ∀ o ∈ [TtyOutput.write spaces], o ≠ .putp .saveCursor := by simp
    exact (t.bracket _ hspaces).1

theorem cursor_outputCursorText (t : Terminal Pos) (s : Screen Pos) {fep fep' : Fep loc}
    {text : List UInt8} {attr : FepAttribute} (h : outputCursorText fep text attr = .ok fep') :
    (t.screen s fep').cursor = (t.screen s fep).cursor := by
  obtain ⟨mid, hblank, hdraw⟩ := bind_eq_ok.mp h
  rw [← cursor_blankCursorText t s hblank]
  by_cases hne : text = []
  · subst hne
    rw [drawCursorText_nil hdraw]
  · exact cursor_drawCursorText t s (drawCursorText_sent hne hdraw)

/-- **The screen size leaves the cursor at home.** The pair of the status text has stored the home
position, where the new scroll region has put the cursor, over the one to go back to. -/
theorem cursor_outputSetScreenSize (t : Terminal Pos) (s : Screen Pos) {fep fep' : Fep loc}
    (col row : Int) (h : outputSetScreenSize fep col row = .ok fep') :
    (t.screen s fep').cursor = t.home := by
  obtain ⟨pieces, htext, houtput⟩ := (outputSetScreenSize_sent col row h).output
  obtain ⟨region, hregion⟩ : ∃ region, region = t.send (t.send (t.screen s fep) (.putp .saveCursor))
    (.putp (.changeScrollRegion 0 (row - 1))) := ⟨_, rfl⟩
  have hinner := t.bracket region (statusLine_ne_saveCursor fep htext)
  have hhome : region.cursor = t.home := by rw [hregion]; rfl
  have hpieces : (t.screen s fep') = t.send ((.putp .saveCursor ::
      ((.putp (.cursorAddress fep.winsize.wsRow.toNat 0) :: .putp .clrEol :: pieces) ++
        [.putp .restoreCursor])).foldl t.send region) (.putp .restoreCursor) := by
    rw [t.screen_of_output s houtput, hregion]
    simp [List.foldl_append]
  rw [hpieces, ← hhome]
  exact hinner.2

/-- The child's output: the cursor is where the child's bytes have left it. -/
theorem cursor_outputStringFromPty (t : Terminal Pos) (s : Screen Pos) {p : Platform}
    {fep fep' : Fep loc} {chunk : List UInt8} (hne : chunk ≠ [])
    (h : outputStringFromPty p fep chunk chunk.length = .ok fep') :
    (t.screen s fep').cursor =
      (t.screen s (writeTty (applyAttr fep fep.attrPty) chunk)).cursor := by
  obtain ⟨mid, hmid, hnone, hsome⟩ := outputStringFromPty_sent hne h
  have hcursor : (t.screen s mid).cursor =
      (t.screen s (writeTty (applyAttr fep fep.attrPty) chunk)).cursor := by
    rw [Terminal.screen, hmid.output, Terminal.screen]
  rw [← hcursor]
  cases hc : fep.cursorText with
  | none => rw [hnone hc]
  | some c =>
    have hdraw := cursor_drawCursorText t s (hsome c hc)
    exact hdraw

/-! ## Runs -/

/-- The overlays of a step keep the cursor: it is where it was before, or where the child's bytes have
left it. -/
def KeepsCursor (t : Terminal Pos) (s : Screen Pos) (fep : Fep loc) (op : ChildOp)
    (fep' : Fep loc) : Prop :=
  match op with
  | .chunk bytes => bytes ≠ [] → (t.screen s fep').cursor =
      (t.screen s (writeTty (applyAttr fep fep.attrPty) bytes)).cursor
  | .cursorText _ _ | .statusText _ _ | .winch _ =>
    (t.screen s fep').cursor = (t.screen s fep).cursor

/-- If the step is a window change, the cursor is at home before it. -/
def AtHome (t : Terminal Pos) (s : Screen Pos) (fep : Fep loc) (op : ChildOp) : Prop :=
  ∀ reported, op = .winch reported → (t.screen s fep).cursor = t.home

theorem keepsCursor_step_iff (t : Terminal Pos) (s : Screen Pos) {p : Platform} {fep fep' : Fep loc}
    {op : ChildOp} (h : childStep p fep op = .ok fep') :
    KeepsCursor t s fep op fep' ↔ AtHome t s fep op := by
  cases op with
  | chunk bytes =>
    have hkeeps : KeepsCursor t s fep (.chunk bytes) fep' :=
      fun hne => cursor_outputStringFromPty t s hne h
    exact iff_of_true hkeeps fun reported hop => absurd hop (by simp)
  | cursorText text attr =>
    have hkeeps : KeepsCursor t s fep (.cursorText text attr) fep' := cursor_outputCursorText t s h
    exact iff_of_true hkeeps fun reported hop => absurd hop (by simp)
  | statusText text attr =>
    have hkeeps : KeepsCursor t s fep (.statusText text attr) fep' := cursor_outputStatusText t s h
    exact iff_of_true hkeeps fun reported hop => absurd hop (by simp)
  | winch reported =>
    have hhome : (t.screen s fep').cursor = t.home :=
      cursor_outputSetScreenSize t s fep.winsize.wsCol.toNat fep.winsize.wsRow.toNat h
    constructor
    · intro hkeeps _ _
      exact hkeeps.symm.trans hhome
    · intro hat
      exact hhome.trans (hat reported rfl).symm

/-- **When the overlays keep the cursor**, whatever the terminal and the run: at every window change the
cursor is at the home position. All other overlays keep it wherever it is. -/
theorem keepsCursor_iff (t : Terminal Pos) (s : Screen Pos) (p : Platform) (fep : Fep loc)
    (ops : List ChildOp) :
    (∀ x ∈ okSteps (childStep p) fep ops, KeepsCursor t s x.1 x.2.1 x.2.2) ↔
      ∀ x ∈ okSteps (childStep p) fep ops, AtHome t s x.1 x.2.1 :=
  forall₂_congr fun _ hx => keepsCursor_step_iff t s (step_of_mem_okSteps hx)

/-- A terminal whose positions are rows and columns, and whose lines have no end. -/
def gridTerminal : Terminal (Int × Int) where
  home := (0, 0)
  address row col := (row, col)
  print _ cursor bytes := (cursor.1, cursor.2 + bytes.length)

/-- The server has initialised a screen of 24 lines, and the child has written a character. Then the
window is made larger, and the cursor ends up at home. -/
theorem not_keepsCursor_winch : ∃ fep : Fep .c,
    outputInitScreen { Fep.new .c with winsize := ⟨23, 80⟩ } = .ok fep ∧
      ¬ ∀ x ∈ okSteps (childStep .x86_64) fep [.chunk [0x61], .winch ⟨40, 80⟩],
        KeepsCursor gridTerminal ⟨[], (5, 5), (0, 0)⟩ x.1 x.2.1 x.2.2 := by
  obtain ⟨fep, hinit⟩ : ∃ fep : Fep .c,
    outputInitScreen { Fep.new .c with winsize := ⟨23, 80⟩ } = .ok fep := ⟨_, rfl⟩
  have hfacts : (outputInitScreen { Fep.new .c with winsize := ⟨23, 80⟩ }).map (fun fep =>
      (fep.cursorText.isNone, fep.statusText, (gridTerminal.screen ⟨[], (5, 5), (0, 0)⟩
        (writeTty (applyAttr fep fep.attrPty) [0x61])).cursor)) = .ok (true, [], (0, 1)) := by
    decide +kernel
  rw [hinit] at hfacts
  simp only [Except.map, Except.ok.injEq, Prod.mk.injEq, Option.isNone_iff_eq_none] at hfacts
  obtain ⟨htext, hstatus, hcursor⟩ := hfacts
  refine ⟨fep, hinit, fun h => ?_⟩
  obtain ⟨mid, hchunk⟩ := exists_childStep_chunk .x86_64 fep [0x61] (by simp [occurrences_singleton])
  have hmid : mid.statusText = [] := by
    obtain ⟨mid', hsent, hnone, -⟩ := outputStringFromPty_sent (by simp) hchunk
    rw [hnone htext, hsent.statusText, hstatus]
  obtain ⟨fep', hwinch⟩ := exists_handleWinchSignal mid (fun hne => absurd hmid hne) ⟨40, 80⟩
  have hwinch' : childStep .x86_64 mid (.winch ⟨40, 80⟩) = .ok fep' := hwinch
  have hkeeps := h (mid, .winch ⟨40, 80⟩, fep') (by
    simp only [okSteps, hchunk, hwinch', List.mem_cons, true_or, or_true])
  have hhome := (keepsCursor_step_iff gridTerminal _ hwinch').mp hkeeps _ rfl
  rw [cursor_outputStringFromPty gridTerminal _ (by simp) hchunk, hcursor] at hhome
  exact absurd hhome (by decide)

end LibFep
