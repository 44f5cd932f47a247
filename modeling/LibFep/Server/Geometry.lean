import LibFep.Lib.Runs
import LibFep.Control.Message
import LibFep.Server.ClientRuns
import LibFep.Term.ChildOutput
import LibFep.Term.Sent

/-!
# LibFep — the size of the window

Who is told about the size of the window, in `fep_run` and in `handle_winch_signal` of `fep/fep.c`: the
terminal gets a scroll region and a line for the status text, the pty a size, and the clients an event.
The handler takes the size for two of the four from the copy that it makes before it asks the kernel.

* **`Agrees`** — all four have the size that the kernel has reported.
* **`agrees_fepRun_iff`**, **`agrees_winch_iff`** — when they do after the first report, and after the
  next.
* **`geometry_agrees_iff`** — the runs in which they do after every report.
-/

namespace LibFep

open Lib

variable {loc : Locale}

/-! ## The request to the clients -/

def buildResizeRequest (p : Platform) (size : Winsize) : Except Fault FepControlMessage := do
  let request := controlMessageAllocArgs .resizeEvent 2
  let (_, request) ← controlMessageWriteUint32Arg p request 0 (size.wsCol.setWidth 32)
  let (_, request) ← controlMessageWriteUint32Arg p request 1 (size.wsRow.setWidth 32)
  return request

/-- RESIZE_EVENT with a size. -/
def resizeRequest (p : Platform) (size : Winsize) : FepControlMessage :=
  ⟨.resizeEvent, [p.wireWord (size.wsCol.setWidth 32), p.wireWord (size.wsRow.setWidth 32)]⟩

theorem buildResizeRequest_eq (p : Platform) (size : Winsize) :
    buildResizeRequest p size = .ok (resizeRequest p size) := rfl

theorem wireWord_setWidth_inj (p : Platform) {a b : BitVec 16}
    (h : p.wireWord (a.setWidth 32) = p.wireWord (b.setWidth 32)) : a = b := by
  have hword := congrArg p.uint32Of h
  rw [uint32Of_wireWord, uint32Of_wireWord] at hword
  have htoNat := congrArg BitVec.toNat hword
  rw [BitVec.toNat_setWidth, BitVec.toNat_setWidth] at htoNat
  apply BitVec.eq_of_toNat_eq
  omega

theorem resizeRequest_inj (p : Platform) {a b : Winsize}
    (h : resizeRequest p a = resizeRequest p b) : a = b := by
  obtain ⟨-, hargs⟩ := FepControlMessage.mk.inj h
  obtain ⟨hcol, hargs⟩ := List.cons.inj hargs
  obtain ⟨hrow, -⟩ := List.cons.inj hargs
  have hrow' : a.wsRow = b.wsRow := wireWord_setWidth_inj p hrow
  have hcol' : a.wsCol = b.wsCol := wireWord_setWidth_inj p hcol
  obtain ⟨aRow, aCol⟩ := a
  exact congrArg₂ Winsize.mk hrow' hcol'

/-! ## The server -/

/-- The size without the status line: `ws_row--`. -/
def Winsize.inner (size : Winsize) : Winsize := { size with wsRow := size.wsRow - 1 }

def Winsize.rows (size : Winsize) : Int := size.wsRow.toNat

structure Geometry (loc : Locale) where
  fep : Fep loc
  /-- The size of the pty. -/
  ptySize : Winsize
  /-- `fep->clients`, and the clients that are connected. -/
  server : ServerState
  /-- What was sent to a client since it was connected, oldest first. -/
  sent : BitVec 32 → List FepControlMessage
  /-- The size that the kernel has reported last. The program does not keep it. -/
  reported : Winsize

/-- The start of `fep_run`, up to `main_loop`. -/
def fepRun (loc : Locale) (codes : SgrCodes) (reported : Winsize) :
    Except Fault (Geometry loc) := do
  let fep ← outputInitScreen { Fep.new loc with winsize := reported.inner, sgrCodes := codes }
  return { fep := fep, ptySize := reported.inner, server := .new, sent := fun _ => [],
           reported := reported }

/-- What `main_loop` does next. -/
inductive GeometryOp where
  /-- `accept` returns `fd` (-1 on failure). -/
  | accept (fd : BitVec 32)
  /-- A message is read from the client at index `i`, which is closed if this fails. -/
  | readClient (i : Nat) (succeeds : Bool)
  /-- Output of the child, a text from a client, or a signal that the window has changed. -/
  | output (op : ChildOp)

/-- A request written to each of the descriptors in turn. -/
def sendTo (request : FepControlMessage) (sent : BitVec 32 → List FepControlMessage)
    (fds : List (BitVec 32)) : BitVec 32 → List FepControlMessage :=
  fds.foldl (fun sent fd => Function.update sent fd (sent fd ++ [request])) sent

/-- `handle_winch_signal`. -/
def handleWinch (p : Platform) (s : Geometry loc) (reported : Winsize) :
    Except Fault (Geometry loc) := do
  let old := s.fep.winsize
  let fep ← handleWinchSignal s.fep reported
  let request ← buildResizeRequest p old
  let fds ← clientsUsed s.server.table
  return { s with fep := fep, ptySize := fep.winsize, sent := sendTo request s.sent fds,
                  reported := reported }

def geometryStep (p : Platform) (s : Geometry loc) : GeometryOp → Except Fault (Geometry loc)
  | .accept fd => do
    let server ← serverStep p s.server (.accept fd)
    return { s with server := server, sent := Function.update s.sent fd [] }
  | .readClient i succeeds => do
    let server ← serverStep p s.server (.readClient i succeeds)
    return { s with server := server }
  | .output (.winch reported) => handleWinch p s reported
  | .output op => do
    let fep ← childStep p s.fep op
    return { s with fep := fep }

/-! ## What they are told -/

def TtyOutput.region? : TtyOutput → Option (Int × Int)
  | .putp (.changeScrollRegion first last) => some (first, last)
  | _ => none

def TtyOutput.addressedRow? : TtyOutput → Option Int
  | .putp (.cursorAddress row _) => some row
  | _ => none

/-- The scroll region that the terminal was given last. -/
def scrollRegion (output : List TtyOutput) : Option (Int × Int) :=
  (output.filterMap TtyOutput.region?).getLast?

/-- The line that the cursor was sent to last: only the status text sends it anywhere. -/
def statusLine (output : List TtyOutput) : Option Int :=
  (output.filterMap TtyOutput.addressedRow?).getLast?

/-- All have the size that the kernel has reported, and no line number has wrapped around. -/
structure Agrees (p : Platform) (s : Geometry loc) (reported : Winsize) : Prop where
  row : s.fep.winsize.rows = reported.rows - 1
  ptySize : s.ptySize.wsCol = reported.wsCol ∧ s.ptySize.rows = reported.rows - 1
  clients : ∀ fd ∈ s.server.connected,
    (s.sent fd).getLast? = some (resizeRequest p reported.inner)
  scrollRegion : scrollRegion s.fep.output = some (0, reported.rows - 2)
  statusLine : statusLine s.fep.output = some (reported.rows - 1)

/-! ## The first report -/

theorem rows_inner_iff (size : Winsize) : size.inner.rows = size.rows - 1 ↔ 1 ≤ size.rows := by
  have hlt := size.wsRow.isLt
  show ((size.wsRow - 1).toNat : Int) = (size.wsRow.toNat : Int) - 1 ↔ 1 ≤ (size.wsRow.toNat : Int)
  rw [BitVec.toNat_sub]
  show (((2 ^ 16 - 1 + size.wsRow.toNat) % 2 ^ 16 : Nat) : Int) = _ ↔ _
  omega

theorem wsRow_eq_of_inner {a b : Winsize} (h : a.inner.rows = b.inner.rows) :
    a.wsRow = b.wsRow := by
  have hsub : a.wsRow - 1 = b.wsRow - 1 := BitVec.eq_of_toNat_eq (Int.ofNat.inj h)
  exact (BitVec.sub_left_inj 1).mp hsub

/-- `fep_run` always gets to `main_loop`, with everything set for the size reported. -/
theorem fepRun_ok (loc : Locale) (codes : SgrCodes) (reported : Winsize) :
    ∃ s, fepRun loc codes reported = .ok s ∧ s.reported = reported ∧
      s.fep.winsize = reported.inner ∧ s.ptySize = reported.inner ∧ s.server = .new ∧
      LibFep.scrollRegion s.fep.output = some (0, reported.inner.rows - 1) ∧
      LibFep.statusLine s.fep.output = some reported.inner.rows :=
  ⟨_, rfl, rfl, rfl, rfl, rfl, rfl, rfl⟩

theorem agrees_fepRun_iff (p : Platform) (codes : SgrCodes) (reported : Winsize) {s : Geometry loc}
    (h : fepRun loc codes reported = .ok s) : Agrees p s reported ↔ 1 ≤ reported.rows := by
  obtain ⟨s', hrun, -, hsize, hpty, hclients, hregion, hline⟩ := fepRun_ok loc codes reported
  obtain rfl := Except.ok.inj (h.symm.trans hrun)
  rw [← rows_inner_iff]
  constructor
  · intro hagrees
    rw [← hsize]
    exact hagrees.row
  · intro hrow
    exact
      { row := by rw [hsize, hrow]
        ptySize := by rw [hpty]; exact ⟨rfl, hrow⟩
        clients := by simp [hclients, ServerState.new]
        scrollRegion := by rw [hregion, hrow, Int.sub_sub]; rfl
        statusLine := by rw [hline, hrow] }

/-! ## The next report -/

/-- The client is among the first `n_clients` entries of the table. -/
def Geometry.Listed (s : Geometry loc) (fd : BitVec 32) : Prop :=
  fd ∈ s.server.table.clients.take s.server.table.nClients

instance (s : Geometry loc) (fd : BitVec 32) : Decidable (s.Listed fd) :=
  inferInstanceAs (Decidable (fd ∈ s.server.table.clients.take s.server.table.nClients))

/-- A report that changes nothing that is taken from the copy: the lines are as before, and so are the
columns if there is a client to tell. A client that is connected but not in the table is told nothing, so
that the last it was told must be this size. -/
structure SizeKept (p : Platform) (s : Geometry loc) (reported : Winsize) : Prop where
  rows_pos : 1 ≤ reported.rows
  rows : reported.wsRow = s.reported.wsRow
  cols : ∀ fd ∈ s.server.connected, s.Listed fd → reported.wsCol = s.reported.wsCol
  lost : ∀ fd ∈ s.server.connected, ¬ s.Listed fd →
    (s.sent fd).getLast? = some (resizeRequest p reported.inner)

theorem sendTo_eq (request : FepControlMessage) (sent : BitVec 32 → List FepControlMessage)
    (fds : List (BitVec 32)) (fd : BitVec 32) :
    sendTo request sent fds fd = sent fd ++ List.replicate (fds.count fd) request := by
  induction fds generalizing sent with
  | nil => exact (List.append_nil _).symm
  | cons other fds ih =>
    show sendTo request (Function.update sent other (sent other ++ [request])) fds fd = _
    rw [ih, List.count_cons]
    by_cases heq : other = fd
    · subst heq
      rw [Function.update_self, if_pos (beq_self_eq_true other), List.append_assoc,
        List.replicate_succ]
      rfl
    · rw [Function.update_of_ne (Ne.symm heq), if_neg (by simpa using heq), Nat.add_zero]

/-- What a client was sent last. -/
theorem getLast?_sendTo (request : FepControlMessage) (sent : BitVec 32 → List FepControlMessage)
    (fds : List (BitVec 32)) (fd : BitVec 32) :
    (sendTo request sent fds fd).getLast? =
      if fd ∈ fds then some request else (sent fd).getLast? := by
  rw [sendTo_eq]
  split
  · next hmem =>
    obtain ⟨k, hk⟩ := Nat.exists_eq_succ_of_ne_zero (List.count_pos_iff.mpr hmem).ne'
    rw [hk, Nat.succ_eq_add_one, List.replicate_succ', ← List.append_assoc, List.getLast?_concat]
  · next hmem => rw [List.count_eq_zero.mpr hmem, List.replicate_zero, List.append_nil]

/-- A text moves neither the scroll region nor the line. -/
theorem told_of_isText {o : TtyOutput} (h : o.IsText) :
    o.region? = none ∧ o.addressedRow? = none := by
  match o, h with
  | .putp .exitAttributeMode, _ => exact ⟨rfl, rfl⟩
  | .sgr _, _ => exact ⟨rfl, rfl⟩
  | .write _, _ => exact ⟨rfl, rfl⟩

/-- What the terminal is told: the scroll region is for the size in the second argument, the line for
the size in the state. -/
theorem told_of_screenSizeSent {fep fep' : Fep loc} {row : Int} (h : ScreenSizeSent fep row fep') :
    LibFep.scrollRegion fep'.output = some (0, row - 1) ∧
      LibFep.statusLine fep'.output = some fep.winsize.rows := by
  obtain ⟨pieces, htext, houtput⟩ := h.output
  have hregion : pieces.filterMap TtyOutput.region? = [] :=
    List.filterMap_eq_nil_iff.mpr fun o ho => (told_of_isText (htext o ho)).1
  have hrow : pieces.filterMap TtyOutput.addressedRow? = [] :=
    List.filterMap_eq_nil_iff.mpr fun o ho => (told_of_isText (htext o ho)).2
  constructor
  · rw [houtput, LibFep.scrollRegion]
    simp only [List.filterMap_append, List.filterMap_cons, TtyOutput.region?, hregion,
      List.filterMap_nil, List.append_nil]
    exact List.getLast?_concat
  · rw [houtput, LibFep.statusLine]
    simp only [List.filterMap_append, List.filterMap_cons, TtyOutput.addressedRow?, hrow,
      List.filterMap_nil, List.append_nil]
    exact List.getLast?_concat

/-- What a report leaves. -/
structure WinchHandled (p : Platform) (s : Geometry loc) (size : Winsize) (s' : Geometry loc) :
    Prop where
  reported : s'.reported = size
  winsize : s'.fep.winsize = size.inner
  ptySize : s'.ptySize = size.inner
  server : s'.server = s.server
  sent : ∀ fd, (s'.sent fd).getLast? =
    if s.Listed fd then some (resizeRequest p s.fep.winsize) else (s.sent fd).getLast?
  scrollRegion : LibFep.scrollRegion s'.fep.output = some (0, s.fep.winsize.rows - 1)
  statusLine : LibFep.statusLine s'.fep.output = some size.inner.rows

theorem winchHandled_of_ok {p : Platform} {s s' : Geometry loc} {reported : Winsize}
    (h : handleWinch p s reported = .ok s') : WinchHandled p s reported s' := by
  obtain ⟨fep, hfep, hs'⟩ := bind_eq_ok.mp h
  obtain ⟨request, hrequest, hs'⟩ := bind_eq_ok.mp hs'
  obtain rfl := Except.ok.inj ((buildResizeRequest_eq p s.fep.winsize).symm.trans hrequest)
  obtain ⟨fds, hfds, hs'⟩ := bind_eq_ok.mp hs'
  obtain rfl := eq_take_of_clientsUsed hfds
  have hsent : ScreenSizeSent { s.fep with winsize := reported.inner } s.fep.winsize.rows fep :=
    handleWinchSignal_sent hfep
  obtain ⟨hregion, hline⟩ := told_of_screenSizeSent hsent
  rw [← Except.ok.inj hs']
  exact ⟨rfl, hsent.winsize, hsent.winsize, rfl, getLast?_sendTo _ _ _, hregion, hline⟩

/-- **One report**: all agree exactly if it keeps what is taken from the copy of the size before. -/
theorem agrees_winch_iff {p : Platform} {s s' : Geometry loc} {reported : Winsize}
    (hsize : s.fep.winsize = s.reported.inner) (h : WinchHandled p s reported s') :
    Agrees p s' reported ↔ SizeKept p s reported := by
  constructor
  · intro hagrees
    have hpos : 1 ≤ reported.rows := by
      rw [← rows_inner_iff, ← h.winsize]
      exact hagrees.row
    -- the scroll region is that of the size before
    have hregion := hagrees.scrollRegion
    rw [h.scrollRegion, Option.some.injEq, Prod.mk.injEq, hsize] at hregion
    have hrows : reported.wsRow = s.reported.wsRow := by
      have hinner := (rows_inner_iff reported).mpr hpos
      exact wsRow_eq_of_inner (by omega)
    have hlast (fd : BitVec 32) (hfd : fd ∈ s.server.connected) :
        (s'.sent fd).getLast? = some (resizeRequest p reported.inner) := by
      rw [← h.server] at hfd
      exact hagrees.clients fd hfd
    refine ⟨hpos, hrows, fun fd hfd hlisted => ?_, fun fd hfd hlost => ?_⟩
    · have hsize' := hlast fd hfd
      rw [h.sent, if_pos hlisted, Option.some.injEq, hsize] at hsize'
      exact (congrArg Winsize.wsCol (resizeRequest_inj p hsize')).symm
    · rw [← hlast fd hfd, h.sent, if_neg hlost]
  · intro hkept
    have hinner := (rows_inner_iff reported).mpr hkept.rows_pos
    have hold : s.fep.winsize.wsRow = reported.inner.wsRow := by
      rw [hsize, Winsize.inner, Winsize.inner, hkept.rows]
    refine
      { row := by rw [h.winsize, hinner]
        ptySize := by rw [h.ptySize]; exact ⟨rfl, hinner⟩
        clients := fun fd hfd => ?_
        scrollRegion := ?_
        statusLine := by rw [h.statusLine, hinner] }
    · rw [h.server] at hfd
      rw [h.sent]
      split
      · next hlisted =>
        have hcols : s.fep.winsize.wsCol = reported.inner.wsCol := by
          rw [hsize]
          exact (hkept.cols fd hfd hlisted).symm
        rw [resizeRequest, resizeRequest, hold, hcols]
      · next hlost => exact hkept.lost fd hfd hlost
    · have hrows : s.fep.winsize.rows = reported.rows - 1 := by
        rw [← hinner, Winsize.rows, hold, Winsize.rows]
      rw [h.scrollRegion, hrows, Int.sub_sub]
      rfl

/-! ## Runs -/

/-- The size kept by the server is that of the last report, without the status line. -/
def SizeReported (s : Geometry loc) : Prop := s.fep.winsize = s.reported.inner

theorem winsize_childStep {p : Platform} {fep fep' : Fep loc} {op : ChildOp}
    (hop : ∀ reported, op ≠ .winch reported) (h : childStep p fep op = .ok fep') :
    fep'.winsize = fep.winsize := by
  cases op with
  | chunk bytes =>
    by_cases hne : bytes = []
    · subst hne
      rw [← Except.ok.inj h]
    · obtain ⟨mid, hmid, hnone, hsome⟩ := outputStringFromPty_sent hne h
      cases hc : fep.cursorText with
      | none => rw [hnone hc, hmid.winsize]
      | some c => exact (hsome c hc).winsize.trans hmid.winsize
  | cursorText text attr =>
    obtain ⟨mid, hblank, hdraw⟩ := bind_eq_ok.mp h
    have hmid : mid.winsize = fep.winsize := by
      cases hc : fep.cursorText with
      | none =>
        rw [blankCursorText, hc] at hblank
        rw [← Except.ok.inj hblank]
      | some c => exact (blankCursorText_sent hc hblank).winsize
    by_cases hne : text = []
    · subst hne
      rw [drawCursorText_nil hdraw, hmid]
    · exact (drawCursorText_sent hne hdraw).winsize.trans hmid
  | statusText text attr => exact (outputStatusText_sent h).winsize
  | winch reported => exact absurd rfl (hop reported)

theorem sizeReported_step {p : Platform} {s s' : Geometry loc} {op : GeometryOp}
    (hs : SizeReported s) (h : geometryStep p s op = .ok s') : SizeReported s' := by
  cases op with
  | accept fd =>
    obtain ⟨server, -, hs'⟩ := bind_eq_ok.mp h
    exact Except.ok.inj hs' ▸ hs
  | readClient i succeeds =>
    obtain ⟨server, -, hs'⟩ := bind_eq_ok.mp h
    exact Except.ok.inj hs' ▸ hs
  | output op =>
    by_cases hop : ∃ reported, op = .winch reported
    · obtain ⟨reported, rfl⟩ := hop
      have hhandled := winchHandled_of_ok h
      rw [SizeReported, hhandled.winsize, hhandled.reported]
    · have hstep : geometryStep p s (.output op) =
          childStep p s.fep op >>= fun fep => .ok { s with fep := fep } := by
        cases op with
        | winch reported => exact absurd ⟨reported, rfl⟩ hop
        | chunk bytes => rfl
        | cursorText text attr => rfl
        | statusText text attr => rfl
      obtain ⟨fep, hfep, hs'⟩ := bind_eq_ok.mp (hstep.symm.trans h)
      rw [← Except.ok.inj hs']
      exact (winsize_childStep (fun reported hr => hop ⟨reported, hr⟩) hfep).trans hs

/-- **When all agree with the kernel after every report**: the first has a line, and every other keeps the
lines of the one before, and its columns while a client in the table is connected; and the clients that the
table has lost have been told this size before. -/
theorem geometry_agrees_iff (p : Platform) (codes : SgrCodes) (first : Winsize)
    (ops : List GeometryOp) : ∃ s : Geometry loc, fepRun loc codes first = .ok s ∧
      ((Agrees p s first ∧ ∀ x ∈ okSteps (geometryStep p) s ops,
          ∀ reported, x.2.1 = .output (.winch reported) → Agrees p x.2.2 reported) ↔
        1 ≤ first.rows ∧ ∀ x ∈ okSteps (geometryStep p) s ops,
          ∀ reported, x.2.1 = .output (.winch reported) → SizeKept p x.1 reported) := by
  obtain ⟨s, hrun, hreported, hsize, -⟩ := fepRun_ok loc codes first
  have hstart : SizeReported s := by rw [SizeReported, hsize, hreported]
  have hsizes : ∀ x ∈ okSteps (geometryStep p) s ops, x.2.1 ∈ ops ∧ SizeReported x.1 :=
    inv_of_mem_okSteps (fun _ _ _ _ hs hstep => sizeReported_step hs hstep) hstart
  refine ⟨s, hrun, ?_⟩
  rw [agrees_fepRun_iff p codes first hrun]
  refine and_congr_right fun _ => forall₂_congr fun x hx => forall₂_congr fun reported hop => ?_
  have hstep := step_of_mem_okSteps hx
  rw [hop] at hstep
  exact agrees_winch_iff (hsizes x hx).2 (winchHandled_of_ok hstep)

/-- A window of 24 lines is made one of 30: the scroll region stays that of 24. -/
theorem not_agrees_larger : ∃ s : Geometry .c, fepRun .c (fun _ => 0) ⟨24, 80⟩ = .ok s ∧
    ∃ s', geometryStep .x86_64 s (.output (.winch ⟨30, 80⟩)) = .ok s' ∧
      ¬ Agrees .x86_64 s' ⟨30, 80⟩ ∧ LibFep.scrollRegion s'.fep.output = some (0, 22) := by
  obtain ⟨s, hrun, -, hsize, -⟩ := fepRun_ok .c (fun _ => 0) ⟨24, 80⟩
  have hstatus : s.fep.statusText = [] := by
    rw [← Except.ok.inj hrun]
    rfl
  obtain ⟨fep, hfep⟩ := exists_handleWinchSignal s.fep (fun hne => absurd hstatus hne) ⟨30, 80⟩
  have hclients : clientsUsed s.server.table = .ok [] := by
    rw [← Except.ok.inj hrun]
    rfl
  have hstep : ∃ s', handleWinch .x86_64 s ⟨30, 80⟩ = .ok s' :=
    ⟨_, bind_eq_ok.mpr ⟨fep, hfep, bind_eq_ok.mpr ⟨_, rfl, bind_eq_ok.mpr ⟨[], hclients, rfl⟩⟩⟩⟩
  obtain ⟨s', hs'⟩ := hstep
  have hregion := (winchHandled_of_ok hs').scrollRegion
  rw [hsize, show Winsize.rows (Winsize.inner ⟨24, 80⟩) - 1 = 22 from rfl] at hregion
  refine ⟨s, hrun, s', hs', fun hagrees => ?_, hregion⟩
  have hagreed := hagrees.scrollRegion
  rw [hregion] at hagreed
  exact absurd hagreed (by decide)

end LibFep
