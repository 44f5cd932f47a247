import LibFep.Term.CursorPosition

/-!
# LibFep — the position that the server keeps

`fep->cursor` beside the cursor of the terminal, over runs of the output functions of
`fep/output.c`. The status text sends `save_cursor` and `restore_cursor` without keeping the position,
also in between those of the screen size.

* **`knowsCursor_step_iff`** — when a step keeps them together.
* **`knowsCursor_iff`** — the runs in which a position that the server knows is the actual one.
-/

namespace LibFep

open Lib

variable {loc : Locale}

/-! ## Operations -/

inductive CursorOp where
  | initScreen
  /-- The first `strLen` bytes of a buffer. -/
  | stringFromPty (str : List UInt8) (strLen : Nat) (hle : strLen ≤ str.length)
  | statusText (text : List UInt8) (attr : FepAttribute)
  | cursorText (text : List UInt8) (attr : FepAttribute)
  | winch (reported : Winsize)

def cursorStep (p : Platform) (fep : Fep loc) : CursorOp → Except Fault (Fep loc)
  | .initScreen => outputInitScreen fep
  | .stringFromPty str strLen _ => outputStringFromPty p fep str strLen
  | .statusText text attr => outputStatusText fep text attr
  | .cursorText text attr => outputCursorText fep text attr
  | .winch reported => handleWinchSignal fep reported

/-- Positions are rows and columns. Text leaves the cursor wherever `print` says. -/
def pointTerminal (print : List TtyOutput → FepPoint → List UInt8 → FepPoint) :
    Terminal FepPoint where
  home := ⟨0, 0⟩
  address := FepPoint.mk
  print := print

/-- A position that the server knows is the actual one, and otherwise it is negative. -/
def KnowsCursor (t : Terminal FepPoint) (s : Screen FepPoint) (fep : Fep loc) : Prop :=
  (0 ≤ fep.cursor.row ∧ 0 ≤ fep.cursor.col → fep.cursor = (t.screen s fep).cursor) ∧
    (¬ (0 ≤ fep.cursor.row ∧ 0 ≤ fep.cursor.col) → fep.cursor.row < 0 ∧ fep.cursor.col < 0)

/-- What a step has to find: the initialisation no line above the status line, the status text the cursor
where the status line starts, and a window change a position that is home or not known. -/
def StaysKnown (t : Terminal FepPoint) (s : Screen FepPoint) (fep : Fep loc) : CursorOp → Prop
  | .initScreen => fep.winsize.wsRow = 0
  | .statusText _ _ => (t.screen s fep).cursor = ⟨fep.winsize.wsRow.toNat, 0⟩
  | .winch _ => fep.cursor.row < 0 ∨ fep.cursor = ⟨0, 0⟩
  | .stringFromPty _ _ _ | .cursorText _ _ => True

/-! ## The position after each operation -/

/-- Nothing is left of the position after output of the child. -/
theorem point_outputStringFromPty {p : Platform} {fep fep' : Fep loc} {str : List UInt8}
    {strLen : Nat} (hpos : 0 < strLen) (hlen : strLen ≤ str.length)
    (h : outputStringFromPty p fep str strLen = .ok fep') : fep'.cursor = ⟨-1, -1⟩ := by
  obtain ⟨mid, hmid, hrestore⟩ := outputStringFromPty_mid hpos hlen h
  obtain ⟨hnone, hsome⟩ := restoreCursorText_sent hrestore
  cases htext : mid.cursorText with
  | none => rw [hnone htext, hmid.cursor]
  | some c => exact (hsome c htext).cursor.trans hmid.cursor

theorem point_outputCursorText {fep fep' : Fep loc} {text : List UInt8} {attr : FepAttribute}
    (h : outputCursorText fep text attr = .ok fep') : fep'.cursor = fep.cursor := by
  obtain ⟨mid, hblank, hdraw⟩ := bind_eq_ok.mp h
  have hmid : mid.cursor = fep.cursor := by
    cases hc : fep.cursorText with
    | none =>
      rw [blankCursorText, hc] at hblank
      rw [Except.ok.inj hblank]
    | some c => exact (blankCursorText_sent hc hblank).cursor
  rw [← hmid]
  by_cases hne : text = []
  · subst hne
    rw [drawCursorText_nil hdraw]
  · exact (drawCursorText_sent hne hdraw).cursor

/-- **The initialisation leaves the cursor at home**, and the server believes it on the status line. -/
theorem cursor_outputInitScreen (t : Terminal FepPoint) (s : Screen FepPoint) {fep fep' : Fep loc}
    (h : outputInitScreen fep = .ok fep') :
    fep'.cursor = ⟨fep.winsize.wsRow.toNat, 0⟩ ∧ (t.screen s fep').cursor = t.home := by
  refine ⟨(outputStatusText_sent h).cursor, ?_⟩
  rw [cursor_outputStatusText t s h]
  simp [Terminal.screen, outputChangeScrollRegion, putp, List.foldl_append, Terminal.send]

/-! ## Steps -/

variable {print : List TtyOutput → FepPoint → List UInt8 → FepPoint} {s : Screen FepPoint}
  {p : Platform} {fep fep' : Fep loc}

theorem knowsCursor_of_known {t : Terminal FepPoint} (hrow : 0 ≤ fep.cursor.row)
    (hcol : 0 ≤ fep.cursor.col) : KnowsCursor t s fep ↔ (t.screen s fep).cursor = fep.cursor :=
  ⟨fun h => (h.1 ⟨hrow, hcol⟩).symm, fun h => ⟨fun _ => h.symm, fun hn => absurd ⟨hrow, hcol⟩ hn⟩⟩

theorem knowsCursor_of_negative {t : Terminal FepPoint} (hrow : fep.cursor.row < 0)
    (hcol : fep.cursor.col < 0) : KnowsCursor t s fep :=
  ⟨fun h => absurd h.1 (Int.not_le.mpr hrow), fun _ => ⟨hrow, hcol⟩⟩

/-- Neither the position nor the cursor has changed. -/
theorem knowsCursor_of_eq {t : Terminal FepPoint} (h : KnowsCursor t s fep)
    (hpoint : fep'.cursor = fep.cursor)
    (hcursor : (t.screen s fep').cursor = (t.screen s fep).cursor) : KnowsCursor t s fep' := by
  unfold KnowsCursor
  rw [hpoint, hcursor]
  exact h

theorem knowsCursor_initScreen_iff (h : outputInitScreen fep = .ok fep') :
    KnowsCursor (pointTerminal print) s fep' ↔ fep.winsize.wsRow = 0 := by
  obtain ⟨hpoint, hcursor⟩ := cursor_outputInitScreen (pointTerminal print) s h
  rw [knowsCursor_of_known (by simp [hpoint]) (by simp [hpoint]), hcursor, hpoint]
  simp only [pointTerminal, FepPoint.mk.injEq, and_true, BitVec.toNat_eq]
  exact eq_comm.trans Int.natCast_eq_zero

/-- The position is where the status line starts, and the cursor where it was before. -/
theorem knowsCursor_statusText_iff {t : Terminal FepPoint} {text : List UInt8} {attr : FepAttribute}
    (h : outputStatusText fep text attr = .ok fep') :
    KnowsCursor t s fep' ↔ (t.screen s fep).cursor = ⟨fep.winsize.wsRow.toNat, 0⟩ := by
  have hpoint := (outputStatusText_sent h).cursor
  rw [knowsCursor_of_known (by simp [hpoint]) (by simp [hpoint]), cursor_outputStatusText t s h, hpoint]

/-- The position is where it was before, and the cursor at home. -/
theorem knowsCursor_winch_iff (hknows : KnowsCursor (pointTerminal print) s fep) {reported : Winsize}
    (h : handleWinchSignal fep reported = .ok fep') :
    KnowsCursor (pointTerminal print) s fep' ↔ fep.cursor.row < 0 ∨ fep.cursor = ⟨0, 0⟩ := by
  have hpoint : fep'.cursor = fep.cursor := (handleWinchSignal_sent h).cursor
  have hcursor : ((pointTerminal print).screen s fep').cursor = ⟨0, 0⟩ :=
    cursor_outputSetScreenSize (pointTerminal print) s fep.winsize.wsCol.toNat fep.winsize.wsRow.toNat h
  by_cases hknown : 0 ≤ fep.cursor.row ∧ 0 ≤ fep.cursor.col
  · rw [knowsCursor_of_known (hpoint ▸ hknown.1) (hpoint ▸ hknown.2), hcursor, hpoint,
      or_iff_right (Int.not_lt.mpr hknown.1)]
    exact eq_comm
  · obtain ⟨hrow, hcol⟩ := hknows.2 hknown
    exact iff_of_true (knowsCursor_of_negative (hpoint ▸ hrow) (hpoint ▸ hcol)) (Or.inl hrow)

/-- **When a step keeps the position and the cursor together.** -/
theorem knowsCursor_step_iff {op : CursorOp} (hknows : KnowsCursor (pointTerminal print) s fep)
    (h : cursorStep p fep op = .ok fep') :
    KnowsCursor (pointTerminal print) s fep' ↔ StaysKnown (pointTerminal print) s fep op := by
  cases op with
  | initScreen => exact knowsCursor_initScreen_iff h
  | stringFromPty str strLen hle =>
    refine iff_of_true ?_ trivial
    rcases Nat.eq_zero_or_pos strLen with rfl | hpos
    · obtain rfl := Except.ok.inj h
      exact hknows
    · have hpoint := point_outputStringFromPty hpos hle h
      apply knowsCursor_of_negative <;> rw [hpoint] <;> decide
  | statusText text attr => exact knowsCursor_statusText_iff h
  | cursorText text attr =>
    refine iff_of_true ?_ trivial
    exact knowsCursor_of_eq hknows (point_outputCursorText h) (cursor_outputCursorText _ s h)
  | winch reported => exact knowsCursor_winch_iff hknows h

/-! ## Runs -/

/-- **The runs in which a position that the server knows is the actual one**, in every state that a step
leads to, wherever text leaves the cursor. A run starts with the initialisation of the screen. -/
theorem knowsCursor_iff (print : List TtyOutput → FepPoint → List UInt8 → FepPoint)
    (s : Screen FepPoint) (p : Platform) (fep : Fep loc) (ops : List CursorOp) :
    (∀ x ∈ okSteps (cursorStep p) fep (.initScreen :: ops), KnowsCursor (pointTerminal print) s x.2.2) ↔
      ∀ x ∈ okSteps (cursorStep p) fep (.initScreen :: ops),
        StaysKnown (pointTerminal print) s x.1 x.2.1 := by
  rw [okSteps]
  cases hinit : cursorStep p fep .initScreen with
  | error fault => exact iff_of_true (List.forall_mem_nil _) (List.forall_mem_nil _)
  | ok fep₀ =>
    have hfirst : KnowsCursor (pointTerminal print) s fep₀ ↔
        StaysKnown (pointTerminal print) s fep .initScreen := knowsCursor_initScreen_iff hinit
    have hrun (hknows : KnowsCursor (pointTerminal print) s fep₀) :=
      @forall_okStates_iff _ _ _ (cursorStep p) (KnowsCursor (pointTerminal print) s)
        (StaysKnown (pointTerminal print) s) (fun _ _ _ => knowsCursor_step_iff) fep₀ hknows ops
    simp only [List.forall_mem_cons]
    constructor
    · rintro ⟨hknows, hrest⟩
      exact ⟨hfirst.mp hknows, (hrun hknows).mp (forall_okStates_iff_steps.mpr ⟨hknows, hrest⟩)⟩
    · rintro ⟨hkeeps, hrest⟩
      have hknows := hfirst.mpr hkeeps
      exact ⟨hknows, (forall_okStates_iff_steps.mp ((hrun hknows).mpr hrest)).2⟩

/-- A screen of 24 lines: after the initialisation the cursor is at home, and the position on the status
line. -/
theorem not_knowsCursor_initScreen :
    ¬ ∀ (print : List TtyOutput → FepPoint → List UInt8 → FepPoint) (s : Screen FepPoint)
      (p : Platform) (fep : Fep .c) (ops : List CursorOp),
      ∀ x ∈ okSteps (cursorStep p) fep (.initScreen :: ops),
        KnowsCursor (pointTerminal print) s x.2.2 := by
  intro h
  obtain ⟨fep', hinit⟩ : ∃ fep' : Fep .c,
    cursorStep .x86_64 { Fep.new .c with winsize := ⟨23, 80⟩ } .initScreen = .ok fep' := ⟨_, rfl⟩
  have hrun := h (fun _ cursor bytes => ⟨cursor.row, cursor.col + bytes.length⟩)
    ⟨[], ⟨5, 5⟩, ⟨0, 0⟩⟩ .x86_64 { Fep.new .c with winsize := ⟨23, 80⟩ } []
  rw [okSteps, hinit] at hrun
  have hknows := hrun _ List.mem_cons_self
  exact absurd ((knowsCursor_initScreen_iff hinit).mp hknows) (by decide)

end LibFep
