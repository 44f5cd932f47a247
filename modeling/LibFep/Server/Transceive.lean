import LibFep.Control.MessageList
import LibFep.Control.ReadSequence
import LibFep.Lib.Runs
import LibFep.Server.HandlerFaults

/-!
# LibFep — requests to a client and the messages that arrive meanwhile

`_fep_dispatch_control_message` and `_fep_transceive_control_message` of `fep/control.c`, and how
`main_loop` mixes them on the socket of one client.

* **`transceiveControlMessage`** — writes a request, reads up to the next RESPONSE, checks it, and
  dispatches what it read on the way. A RESPONSE whose command does not match is freed before its
  command is formatted for the log.
* **`dispatched_iff_steps_end_well`** — for every byte stream, every schedule of the `read` calls and
  every placement of the calls: each message read that is no RESPONSE is dispatched once, in the order
  of the stream, and `_fep_transceive_control_message` returns 0 exactly for a RESPONSE that names
  the command of the request, unless the run comes to such a RESPONSE, to a read that faults or to a
  handler that does not get through.
-/

namespace LibFep

open Lib

/-! ## Dispatch -/

/-- The calls of `_fep_dispatch_control_message` so far, the messages of those that found a handler, and
what the handlers have left: the screen, and the pieces that they have written to the pty. -/
structure Dispatched (e : Setting) where
  calls : List FepControlMessage
  handled : List FepControlMessage
  fep : Fep e.locale
  pty : List (List UInt8)

/-- The commands of the table `handlers`. -/
def handlers : List FepControlCommand :=
  [.setCursorText, .setStatusText, .sendText, .sendData, .forwardKeyEvent]

variable {e : Setting}

/-- `_fep_dispatch_control_message`. None of the handlers reads from a client. -/
def dispatchControlMessage (d : Dispatched e) (message : FepControlMessage) :
    Except Fault (Int × Dispatched e) :=
  let d := { d with calls := d.calls ++ [message] }
  if message.command ∈ handlers then do
    let (fep, pieces) ← runHandler e d.fep message
    return (0, { d with
      handled := d.handled ++ [message], fep := fep, pty := d.pty ++ pieces })
  else .ok (-1, d)

/-! ## Waiting for the response -/

/-- Where the loop `while (true)` has ended: with a RESPONSE, or with `none` at a failed read. -/
structure Waited where
  response : Option FepControlMessage
  reads : List (Option FepControlMessage)
  heap : NodeHeap FepControlMessage
  messages : Option Nat

/-- A read after the last one that returns: it blocks, or it ends with a fault. -/
def readPast {α : Type} : Option Fault → Except Fault (Option α)
  | none => .ok none
  | some fault => .error fault

/-- The loop `while (true)`. The result `none` says that it still waits for a message. -/
def waitForResponse (fault : Option Fault) : List (Option FepControlMessage) →
    NodeHeap FepControlMessage → Option Nat → Except Fault (Option Waited)
  | [], _, _ => readPast fault
  | none :: reads, heap, messages => .ok (some ⟨none, reads, heap, messages⟩)
  | some message :: reads, heap, messages =>
    if message.command = .response then .ok (some ⟨some message, reads, heap, messages⟩)
    else do
      let (heap, messages) ← appendControlMessage heap messages message
      waitForResponse fault reads heap messages

/-- The three checks of the response. The byte in it is a `char` and the command an `int`. -/
def checkResponse (p : Platform) (request response : FepControlMessage) : Except Fault Int :=
  match response.args with
  | [] => .ok (-1)
  | [byte] :: _ =>
    -- a command that does not match is looked at once more, for the log, after it was freed
    if p.charToInt byte ≠ BitVec.ofNat 32 request.command.toByte.toNat then .error .badAccess
    else .ok 0
  | _ :: _ => .ok (-1)

/-- A call of `_fep_transceive_control_message`: the reads from its start on, whether its request
could be written, and what it returned. -/
structure Transceived where
  request : FepControlMessage
  written : Bool
  reads : List (Option FepControlMessage)
  retval : Int

/-- The server's side of one client. -/
structure ClientLink (e : Setting) where
  /-- The reads from the socket that are still to come. -/
  reads : List (Option FepControlMessage)
  /-- What comes after these. -/
  fault : Option Fault
  closed : Bool
  heap : NodeHeap FepControlMessage
  dispatched : Dispatched e
  transceived : List Transceived

/-- A client that has just connected, with the screen as it is. -/
def ClientLink.new (fep : Fep e.locale) (fd : Fd) : ClientLink e where
  reads := readSequence e.platform fd
  fault := readFault e.platform fd
  closed := false
  heap := .empty
  dispatched := ⟨[], [], fep, []⟩
  transceived := []

/-- The screen, where something else has been shown. -/
def ClientLink.withScreen (c : ClientLink e) (fep : Fep e.locale) : ClientLink e :=
  { c with dispatched := { c.dispatched with fep := fep } }

/-- `_fep_transceive_control_message`, with the results of the writes of the request. -/
def transceiveControlMessage (c : ClientLink e) (request : FepControlMessage)
    (results : List WriteResult) : Except Fault (Option (Int × ClientLink e)) := do
  if (writeControlMessage e.platform results request).retval < 0 then
    return some ((writeControlMessage e.platform results request).retval, c)
  let some waited ← waitForResponse c.fault c.reads c.heap none | return none
  let retval ← waited.response.elim (.ok (-1)) (checkResponse e.platform request)
  let (heap, dispatched) ← flushMessages
    (fun d message => (dispatchControlMessage d message).map (·.2)) waited.heap waited.messages
      c.dispatched
  return some (retval, { c with reads := waited.reads, heap := heap, dispatched := dispatched })

/-! ## What `main_loop` does with a client -/

inductive LinkOp (e : Setting) where
  /-- `main_loop` finds the socket readable, reads a message and dispatches it. -/
  | read
  /-- A key or a window change is sent to the client. -/
  | transceive (request : FepControlMessage) (results : List WriteResult)
  /-- `main_loop` deals with the child, with another client or with a signal, and leaves another screen. -/
  | elsewhere (fep : Fep e.locale)

/-- One operation, `none` if it does not return. After a failed read in `main_loop` the client is
closed, and neither its socket nor its entry in the table is used again. -/
def linkStep (c : ClientLink e) : LinkOp e → Except Fault (Option (ClientLink e))
  | .read =>
    if c.closed then .ok (some c)
    else match c.reads with
      | [] => readPast c.fault
      | none :: reads => .ok (some { c with reads := reads, closed := true })
      | some message :: reads => do
        let (_, dispatched) ← dispatchControlMessage c.dispatched message
        return some { c with reads := reads, dispatched := dispatched }
  | .transceive request results =>
    if c.closed then .ok (some c)
    else do
      let some (retval, c') ← transceiveControlMessage c request results | return none
      let written := decide (0 ≤ (writeControlMessage e.platform results request).retval)
      return some { c' with
        transceived := c'.transceived ++ [⟨request, written, c.reads, retval⟩] }
  | .elsewhere fep => .ok (some (c.withScreen fep))

/-- One step of a run. It ends with a fault, or with an operation that does not return. -/
def linkRunStep (r : Except Fault (Option (ClientLink e))) (op : LinkOp e) :
    Except Fault (Option (ClientLink e)) :=
  r.bind fun o => o.elim (.ok none) (linkStep · op)

/-! ## What one operation does -/

/-- The messages among the results of reads. -/
def messagesOf (reads : List (Option FepControlMessage)) : List FepControlMessage :=
  reads.filterMap id

@[simp] theorem messagesOf_nil : messagesOf [] = [] := rfl

@[simp] theorem messagesOf_append (reads reads' : List (Option FepControlMessage)) :
    messagesOf (reads ++ reads') = messagesOf reads ++ messagesOf reads' := by
  simp [messagesOf]

@[simp] theorem messagesOf_none : messagesOf [none] = [] := rfl

@[simp] theorem messagesOf_some (message : FepControlMessage) :
    messagesOf [some message] = [message] := rfl

/-- Every message but a RESPONSE is to be dispatched. -/
def ToDispatch (message : FepControlMessage) : Prop := message.command ≠ .response

instance : DecidablePred ToDispatch := fun message =>
  inferInstanceAs (Decidable (message.command ≠ .response))

/-- The read that ends the loop: the first that is a RESPONSE or fails. -/
def lastRead (reads : List (Option FepControlMessage)) : Option (Option FepControlMessage) :=
  reads.find? (Option.all (·.command = .response))

/-- The messages before that read. -/
def queuedBefore (reads : List (Option FepControlMessage)) : List FepControlMessage :=
  messagesOf (reads.takeWhile fun read => !read.all (·.command = .response))

/-- A handler is never run for a RESPONSE. -/
theorem toDispatch_of_mem_handlers {message : FepControlMessage}
    (h : message.command ∈ handlers) : ToDispatch message := by
  intro heq
  rw [heq] at h
  exact absurd h (by decide)

theorem filter_handlers_filter (messages : List FepControlMessage) :
    (messages.filter ToDispatch).filter (·.command ∈ handlers) =
      messages.filter (·.command ∈ handlers) := by
  rw [List.filter_filter]
  apply List.filter_congr
  intro message _
  by_cases hmem : message.command ∈ handlers
  · simp [hmem, toDispatch_of_mem_handlers hmem]
  · simp [hmem]

/-- Messages have been dispatched, one after the other. -/
structure Dispatches (d : Dispatched e) (messages : List FepControlMessage) (d' : Dispatched e) :
    Prop where
  calls : d'.calls = d.calls ++ messages
  handled : d'.handled = d.handled ++ messages.filter (·.command ∈ handlers)
  pty : d'.pty = d.pty ++ messages.flatMap (ptyOutput e)

theorem Dispatches.refl (d : Dispatched e) : Dispatches d [] d :=
  ⟨(List.append_nil _).symm, (List.append_nil _).symm, (List.append_nil _).symm⟩

theorem Dispatches.cons {d d₁ d' : Dispatched e} {message : FepControlMessage}
    {messages : List FepControlMessage} (h₁ : Dispatches d [message] d₁)
    (h : Dispatches d₁ messages d') : Dispatches d (message :: messages) d' where
  calls := by rw [h.calls, h₁.calls, List.append_assoc, List.singleton_append]
  handled := by
    rw [h.handled, h₁.handled, List.append_assoc, ← List.filter_append, List.singleton_append]
  pty := by rw [h.pty, h₁.pty, List.append_assoc, ← List.flatMap_append, List.singleton_append]

/-- Nothing is written for a message that has no handler. -/
theorem ptyOutput_of_not_mem {message : FepControlMessage} (h : message.command ∉ handlers) :
    ptyOutput e message = [] := by
  obtain ⟨command, args⟩ := message
  cases command with
  | setCursorText | setStatusText | sendText | sendData | forwardKeyEvent =>
    exact absurd (show _ ∈ handlers by simp [handlers]) h
  | keyEvent | resizeEvent | response => rfl

/-- One call of `_fep_dispatch_control_message` that returns. -/
theorem dispatches_of_ok {d d' : Dispatched e} {message : FepControlMessage} {retval : Int}
    (h : dispatchControlMessage d message = .ok (retval, d')) : Dispatches d [message] d' := by
  unfold dispatchControlMessage at h
  by_cases hmem : message.command ∈ handlers
  · rw [if_pos hmem] at h
    obtain ⟨⟨fep, pieces⟩, hrun, h⟩ := bind_eq_ok.mp h
    obtain rfl := runHandler_output hrun
    obtain ⟨-, rfl⟩ := Prod.mk.inj (Except.ok.inj h)
    exact ⟨rfl, by simp [hmem], by simp⟩
  · rw [if_neg hmem] at h
    obtain ⟨-, rfl⟩ := Prod.mk.inj (Except.ok.inj h)
    exact ⟨rfl, by simp [hmem], by simp [ptyOutput_of_not_mem hmem]⟩

/-- A message without a handler survives whatever is on the screen. -/
theorem survives_of_not_mem {fep : Fep e.locale} {message : FepControlMessage}
    (h : message.command ∉ handlers) : Survives e fep message := by
  obtain ⟨command, args⟩ := message
  cases command with
  | setCursorText | setStatusText | sendText | sendData | forwardKeyEvent =>
    exact absurd (show _ ∈ handlers by simp [handlers]) h
  | keyEvent | resizeEvent | response => trivial

/-- The call returns exactly if the handler gets through. -/
theorem isOk_dispatchControlMessage_iff (d : Dispatched e) (message : FepControlMessage) :
    (∃ r, dispatchControlMessage d message = .ok r) ↔ Survives e d.fep message := by
  unfold dispatchControlMessage
  by_cases hmem : message.command ∈ handlers
  · rw [if_pos hmem, ← runHandler_ok_iff]
    constructor
    · rintro ⟨r, h⟩
      obtain ⟨shown, hrun, -⟩ := bind_eq_ok.mp h
      exact ⟨shown, hrun⟩
    · rintro ⟨⟨fep, pieces⟩, hrun⟩
      exact ⟨_, bind_eq_ok.mpr ⟨(fep, pieces), hrun, rfl⟩⟩
  · rw [if_neg hmem]
    exact iff_of_true ⟨_, rfl⟩ (survives_of_not_mem hmem)

/-- The handlers of messages get through, each on the screen that those before it have left. -/
def SurviveAll (d : Dispatched e) : List FepControlMessage → Prop
  | [] => True
  | message :: messages => Survives e d.fep message ∧
    ∀ retval d', dispatchControlMessage d message = .ok (retval, d') → SurviveAll d' messages

/-- Dispatching a list of messages one after the other. -/
theorem foldlM_dispatchControlMessage (d : Dispatched e) (messages : List FepControlMessage) :
    (SurviveAll d messages → ∃ d', messages.foldlM
        (fun d message => (dispatchControlMessage d message).map (·.2)) d = .ok d' ∧
          Dispatches d messages d') ∧
      (¬ SurviveAll d messages → ∃ fault, messages.foldlM
        (fun d message => (dispatchControlMessage d message).map (·.2)) d = .error fault) := by
  induction messages generalizing d with
  | nil => exact ⟨fun _ => ⟨d, rfl, .refl d⟩, fun h => absurd trivial h⟩
  | cons message messages ih =>
    rw [List.foldlM_cons, SurviveAll, ← isOk_dispatchControlMessage_iff]
    cases hrun : dispatchControlMessage d message with
    | error fault => exact ⟨fun h => absurd h.1 (by simp), fun _ => ⟨fault, rfl⟩⟩
    | ok r =>
      obtain ⟨retval, d₁⟩ := r
      have hall : (∀ retval' d', Except.ok (ε := Fault) (retval, d₁) = .ok (retval', d') →
          SurviveAll d' messages) ↔ SurviveAll d₁ messages := by
        constructor
        · exact fun h => h retval d₁ rfl
        · intro h retval' d' heq
          rw [← (Prod.mk.inj (Except.ok.inj heq)).2]
          exact h
      have hreturns : ∃ r, Except.ok (ε := Fault) (retval, d₁) = .ok r := ⟨_, rfl⟩
      rw [hall, and_iff_right hreturns]
      constructor
      · intro hsurvive
        obtain ⟨d', hok, hdispatches⟩ := (ih d₁).1 hsurvive
        exact ⟨d', hok, (dispatches_of_ok hrun).cons hdispatches⟩
      · exact (ih d₁).2

theorem waitForResponse_of_none {reads : List (Option FepControlMessage)} (fault : Option Fault)
    {heap : NodeHeap FepControlMessage} {messages : Option Nat} {queue : List FepControlMessage}
    (hq : NodeHeap.IsQueue heap messages queue) (hlast : lastRead reads = none) :
    waitForResponse fault reads heap messages = readPast fault := by
  induction reads generalizing heap messages queue with
  | nil => rfl
  | cons read reads ih =>
    obtain ⟨hread, hreads⟩ := List.forall_mem_cons.mp (List.find?_eq_none.mp hlast)
    cases read with
    | none => exact absurd rfl hread
    | some message =>
      obtain ⟨heap', messages', happend, hq'⟩ := fepListAppend_isQueue hq message
      rw [waitForResponse, if_neg (by simpa using hread), appendControlMessage, happend]
      exact ih hq' (List.find?_eq_none.mpr hreads)

/-- The loop appends what it reads to the queue, and ends at the first RESPONSE or failed read. -/
theorem waitForResponse_of_some {reads : List (Option FepControlMessage)}
    {last : Option FepControlMessage} (fault : Option Fault) {heap : NodeHeap FepControlMessage}
    {messages : Option Nat} {queue : List FepControlMessage}
    (hq : NodeHeap.IsQueue heap messages queue) (hlast : lastRead reads = some last) :
    ∃ w consumed, waitForResponse fault reads heap messages = .ok (some w) ∧ w.response = last ∧
      reads = consumed ++ w.reads ∧ (messagesOf consumed).filter ToDispatch = queuedBefore reads ∧
      NodeHeap.IsQueue w.heap w.messages (queue ++ queuedBefore reads) := by
  induction reads generalizing heap messages queue with
  | nil => exact absurd hlast (by simp [lastRead])
  | cons read reads ih =>
    cases read with
    | none =>
      obtain rfl := Option.some.inj hlast
      exact ⟨_, [none], rfl, rfl, rfl, rfl, by rwa [show queuedBefore (none :: reads) = [] from rfl,
        List.append_nil]⟩
    | some message =>
      rw [waitForResponse]
      by_cases hresp : message.command = .response
      · have hnone : queuedBefore (some message :: reads) = [] := by simp [queuedBefore, hresp]
        rw [lastRead, List.find?_cons_of_pos (by simpa using hresp)] at hlast
        obtain rfl := Option.some.inj hlast
        rw [if_pos hresp, hnone, List.append_nil]
        exact ⟨_, [some message], rfl, rfl, rfl, by simp [ToDispatch, hresp], hq⟩
      · have hcons : queuedBefore (some message :: reads) = message :: queuedBefore reads := by
          simp [queuedBefore, hresp, messagesOf]
        rw [lastRead, List.find?_cons_of_neg (by simpa using hresp)] at hlast
        obtain ⟨heap', messages', happend, hq'⟩ := fepListAppend_isQueue hq message
        obtain ⟨w, consumed, hwait, hresponse, hreads, hconsumed, hqueue⟩ := ih hq' hlast
        refine ⟨w, some message :: consumed, ?_, hresponse, by rw [hreads]; rfl, ?_, ?_⟩
        · rw [if_neg hresp, appendControlMessage, happend]
          exact hwait
        · rw [hcons, ← hconsumed]
          simp [messagesOf, ToDispatch, hresp]
        · rw [hcons]
          simpa using hqueue

/-- The low byte of a sign-extended byte. -/
theorem setWidth_signExtend (b : BitVec 8) : (b.signExtend 32).setWidth 8 = b := by
  apply BitVec.eq_of_getLsbD_eq
  intro i hi
  rw [BitVec.getLsbD_setWidth, BitVec.getLsbD_signExtend]
  simp [hi, show i < 32 by omega]

/-- A `char` equals a command as an `int` exactly when the bytes agree, because no command is as
large as 128. -/
theorem charToInt_eq_command_iff (p : Platform) (byte : UInt8) (command : FepControlCommand) :
    p.charToInt byte = BitVec.ofNat 32 command.toByte.toNat ↔ byte = command.toByte := by
  have hlt : command.toByte.toNat < 128 := by cases command <;> decide
  unfold Platform.charToInt
  constructor
  · intro h
    have hlow := congrArg (BitVec.setWidth 8) h
    have hbyte : byte.toBitVec = command.toByte.toBitVec := by
      split at hlow
      · rw [setWidth_signExtend] at hlow
        simpa using hlow
      · simpa using hlow
    exact UInt8.toBitVec_inj.mp hbyte
  · rintro rfl
    split
    · rw [BitVec.signExtend_eq_setWidth_of_msb_false ((msb_eq_false_iff _).mpr hlt)]
      cases command <;> rfl
    · cases command <;> rfl

/-- A RESPONSE that can be checked without harm: if its first argument is one byte, it is the
command of the request. -/
def Checkable (request response : FepControlMessage) : Prop :=
  ∀ byte, response.args.head? = some [byte] → byte = request.command.toByte

theorem checkResponse_of_checkable (p : Platform) {request response : FepControlMessage}
    (h : Checkable request response) :
    checkResponse p request response =
      .ok (if response.args.head? = some [request.command.toByte] then 0 else -1) := by
  unfold checkResponse
  split
  · next heq => simp [heq]
  · next byte rest heq =>
    have hbyte := h byte (by rw [heq]; rfl)
    rw [if_neg (not_not.mpr ((charToInt_eq_command_iff p byte request.command).mpr hbyte)), heq,
      hbyte, List.head?_cons, if_pos rfl]
  · next arg rest hne heq =>
    rw [heq, if_neg]
    intro hhead
    exact hne _ (Option.some.inj hhead)

theorem checkResponse_of_not_checkable (p : Platform) {request response : FepControlMessage}
    (h : ¬ Checkable request response) : checkResponse p request response = .error .badAccess := by
  unfold Checkable at h
  push Not at h
  obtain ⟨byte, hhead, hne⟩ := h
  obtain ⟨rest, hargs⟩ := List.head?_eq_some_iff.mp hhead
  rw [checkResponse, hargs]
  exact if_pos (mt (charToInt_eq_command_iff p byte request.command).mp hne)

/-- The RESPONSE that the call has found names the command of its request. -/
def Transceived.Accepted (t : Transceived) : Prop :=
  ∃ response, lastRead t.reads = some (some response) ∧
    response.args.head? = some [t.request.command.toByte]

/-- The call does not end with a fault: neither a read nor the check of the RESPONSE does, and the
handlers of the messages that arrived before it get through. -/
def EndsWell (c : ClientLink e) (request : FepControlMessage) : Prop :=
  match lastRead c.reads with
  | none => c.fault = none
  | some response => (∀ m, response = some m → Checkable request m) ∧
    SurviveAll c.dispatched (queuedBefore c.reads)

/-- What is left in the link after a call that has made the reads `consumed`. -/
structure Transceives (c c' : ClientLink e) (consumed : List (Option FepControlMessage)) : Prop where
  transceived : c'.transceived = c.transceived
  reads : c.reads = consumed ++ c'.reads
  dispatched : Dispatches c.dispatched ((messagesOf consumed).filter ToDispatch) c'.dispatched

/-- A request that cannot be written: nothing is read. -/
theorem transceiveControlMessage_of_unwritten (c : ClientLink e) {request : FepControlMessage}
    {results : List WriteResult}
    (hwrite : (writeControlMessage e.platform results request).retval < 0) :
    transceiveControlMessage c request results =
      .ok (some ((writeControlMessage e.platform results request).retval, c)) := by
  rw [transceiveControlMessage, if_pos hwrite]
  rfl

/-- **One call.** It dispatches the messages it has read, in order, and returns 0 exactly when the
RESPONSE is accepted. -/
theorem transceiveControlMessage_of_endsWell (c : ClientLink e) {request : FepControlMessage}
    {results : List WriteResult}
    (hwrite : ¬ (writeControlMessage e.platform results request).retval < 0)
    (hends : EndsWell c request) :
    ∃ o, transceiveControlMessage c request results = .ok o ∧ ∀ retval c', o = some (retval, c') →
      (∃ consumed, Transceives c c' consumed) ∧
      (retval = 0 ↔ Transceived.Accepted ⟨request, true, c.reads, retval⟩) := by
  unfold transceiveControlMessage
  rw [if_neg hwrite]
  cases hlast : lastRead c.reads with
  | none =>
    -- it still waits
    rw [EndsWell, hlast] at hends
    refine ⟨none, ?_, by simp⟩
    rw [waitForResponse_of_none c.fault (NodeHeap.isQueue_nil c.heap) hlast, hends]
    rfl
  | some last =>
    obtain ⟨w, consumed, hwait, hresponse, hreads, hconsumed, hqueue⟩ :=
      waitForResponse_of_some c.fault (NodeHeap.isQueue_nil c.heap) hlast
    rw [EndsWell, hlast] at hends
    obtain ⟨hcheckable, hsurvive⟩ := hends
    obtain ⟨heap, hflush⟩ := flushMessages_of_isQueue
      (fun d message => (dispatchControlMessage d message).map (·.2)) hqueue c.dispatched
    obtain ⟨d', hfold, hdispatches⟩ :=
      (foldlM_dispatchControlMessage c.dispatched (queuedBefore c.reads)).1 hsurvive
    rw [List.nil_append, hfold] at hflush
    have hcheck : ∃ retval, last.elim (.ok (-1)) (checkResponse e.platform request) = .ok retval ∧
        (retval = 0 ↔ Transceived.Accepted ⟨request, true, c.reads, retval⟩) := by
      cases last with
      | none => exact ⟨-1, rfl, by simp [Transceived.Accepted, hlast]⟩
      | some response =>
        exact ⟨_, checkResponse_of_checkable e.platform (hcheckable response rfl),
          by simp [Transceived.Accepted, hlast]⟩
    obtain ⟨retval, hretval, hiff⟩ := hcheck
    refine ⟨some (retval, { c with reads := w.reads, heap := heap, dispatched := d' }), ?_, ?_⟩
    · rw [hwait]
      show (w.response.elim (.ok (-1)) (checkResponse e.platform request) >>= _) = _
      rw [hresponse, hretval]
      show (flushMessages _ w.heap w.messages c.dispatched >>= _) = _
      rw [hflush]
      rfl
    · rintro retval' c' heq
      obtain ⟨rfl, rfl⟩ := Prod.mk.inj (Option.some.inj heq)
      exact ⟨⟨consumed, rfl, hreads, hconsumed ▸ hdispatches⟩, hiff⟩

/-- A call that does not end well: messages it has queued are lost. -/
theorem transceiveControlMessage_of_not_endsWell (c : ClientLink e) {request : FepControlMessage}
    {results : List WriteResult}
    (hwrite : ¬ (writeControlMessage e.platform results request).retval < 0)
    (hends : ¬ EndsWell c request) :
    ∃ fault, transceiveControlMessage c request results = .error fault := by
  unfold transceiveControlMessage
  rw [if_neg hwrite]
  cases hlast : lastRead c.reads with
  | none =>
    rw [EndsWell, hlast] at hends
    obtain ⟨fault, hfault⟩ := Option.ne_none_iff_exists'.mp hends
    refine ⟨fault, ?_⟩
    rw [waitForResponse_of_none c.fault (NodeHeap.isQueue_nil c.heap) hlast, hfault]
    rfl
  | some last =>
    obtain ⟨w, consumed, hwait, hresponse, -, -, hqueue⟩ :=
      waitForResponse_of_some c.fault (NodeHeap.isQueue_nil c.heap) hlast
    rw [EndsWell, hlast] at hends
    rw [hwait]
    show ∃ fault, (w.response.elim (.ok (-1)) (checkResponse e.platform request) >>= _) = _
    rw [hresponse]
    by_cases hcheckable : ∀ m, last = some m → Checkable request m
    · -- the flush comes to a handler that does not get through
      have hsurvive : ¬ SurviveAll c.dispatched (queuedBefore c.reads) := fun h =>
        hends ⟨hcheckable, h⟩
      obtain ⟨fault, hfold⟩ :=
        (foldlM_dispatchControlMessage c.dispatched (queuedBefore c.reads)).2 hsurvive
      obtain ⟨heap, hflush⟩ := flushMessages_of_isQueue
        (fun d message => (dispatchControlMessage d message).map (·.2)) hqueue c.dispatched
      rw [List.nil_append, hfold] at hflush
      obtain ⟨retval, hretval⟩ : ∃ retval,
          last.elim (.ok (-1)) (checkResponse e.platform request) = .ok retval := by
        cases last with
        | none => exact ⟨-1, rfl⟩
        | some response =>
          exact ⟨_, checkResponse_of_checkable e.platform (hcheckable response rfl)⟩
      refine ⟨fault, ?_⟩
      rw [hretval]
      show (flushMessages _ w.heap w.messages c.dispatched >>= _) = _
      rw [hflush]
      rfl
    · push Not at hcheckable
      obtain ⟨response, rfl, hnot⟩ := hcheckable
      refine ⟨.badAccess, ?_⟩
      show (checkResponse e.platform request response >>= _) = _
      rw [checkResponse_of_not_checkable e.platform hnot]
      rfl

/-! ## Runs -/

/-- What holds of the server's side of a client: of the reads that were made, every message that
is no RESPONSE has been dispatched, once and in order, handlers have run for those that have one,
and the calls that wrote their requests returned 0 for an accepted RESPONSE and nothing else. -/
structure InOrder (all : List (Option FepControlMessage)) (c : ClientLink e) : Prop where
  dispatched : ∃ consumed, all = consumed ++ c.reads ∧
    c.dispatched.calls.filter ToDispatch = (messagesOf consumed).filter ToDispatch ∧
    c.dispatched.handled = (messagesOf consumed).filter (·.command ∈ handlers) ∧
    c.dispatched.pty = (messagesOf consumed).flatMap (ptyOutput e)
  returned : ∀ t ∈ c.transceived, t.written = true → (t.retval = 0 ↔ t.Accepted)

theorem inOrder_new (fep : Fep e.locale) (fd : Fd) :
    InOrder (readSequence e.platform fd) (ClientLink.new fep fd) where
  dispatched := ⟨[], rfl, rfl, rfl, rfl⟩
  returned := by simp [ClientLink.new]

/-- In a run: no fault so far, and all messages in order. -/
def KeepsOrder (all : List (Option FepControlMessage)) :
    Except Fault (Option (ClientLink e)) → Prop
  | .ok (some c) => InOrder all c
  -- an operation has not returned yet
  | .ok none => True
  | .error _ => False

/-- The operation does not run into a fault: a read that does, a RESPONSE that cannot be checked, or a
handler that does not get through on the screen that it finds. -/
def StepEndsWell : Except Fault (Option (ClientLink e)) → LinkOp e → Prop
  | .ok (some c), .read => c.closed = true ∨
    match c.reads with
    | [] => c.fault = none
    | none :: _ => True
    | some message :: _ => Survives e c.dispatched.fep message
  | .ok (some c), .transceive request results =>
    c.closed = true ∨ (writeControlMessage e.platform results request).retval < 0 ∨
      EndsWell c request
  | _, _ => True

/-- What has been read is what has been dispatched. -/
structure Accounts (read : List FepControlMessage) (d : Dispatched e) : Prop where
  calls : d.calls.filter ToDispatch = read.filter ToDispatch
  handled : d.handled = read.filter (·.command ∈ handlers)
  pty : d.pty = read.flatMap (ptyOutput e)

/-- Messages without a RESPONSE write the same. -/
theorem flatMap_ptyOutput_filter (messages : List FepControlMessage) :
    (messages.filter ToDispatch).flatMap (ptyOutput e) = messages.flatMap (ptyOutput e) := by
  induction messages with
  | nil => rfl
  | cons message messages ih =>
    by_cases hresp : ToDispatch message
    · rw [List.filter_cons_of_pos (by simpa using hresp), List.flatMap_cons, ih, List.flatMap_cons]
    · have hnone : ptyOutput e message = [] := by
        apply ptyOutput_of_not_mem
        exact fun hmem => hresp (toDispatch_of_mem_handlers hmem)
      rw [List.filter_cons_of_neg (by simpa using hresp), ih, List.flatMap_cons, hnone,
        List.nil_append]

/-- More is read and dispatched. -/
theorem Accounts.dispatches {read more : List FepControlMessage} {d d' : Dispatched e}
    (h : Accounts read d) {messages : List FepControlMessage}
    (hmessages : messages.filter ToDispatch = more.filter ToDispatch)
    (hd : Dispatches d messages d') : Accounts (read ++ more) d' where
  calls := by rw [hd.calls, List.filter_append, List.filter_append, h.calls, hmessages]
  handled := by
    rw [hd.handled, List.filter_append, h.handled, ← filter_handlers_filter messages, hmessages,
      filter_handlers_filter]
  pty := by
    rw [hd.pty, List.flatMap_append, h.pty, ← flatMap_ptyOutput_filter messages, hmessages,
      flatMap_ptyOutput_filter]

theorem inOrder_of_accounts {all : List (Option FepControlMessage)} {c : ClientLink e}
    (consumed : List (Option FepControlMessage)) (hall : all = consumed ++ c.reads)
    (h : Accounts (messagesOf consumed) c.dispatched)
    (hreturned : ∀ t ∈ c.transceived, t.written = true → (t.retval = 0 ↔ t.Accepted)) :
    InOrder all c :=
  ⟨⟨consumed, hall, h.calls, h.handled, h.pty⟩, hreturned⟩

theorem InOrder.accounts {all : List (Option FepControlMessage)} {c : ClientLink e}
    (h : InOrder all c) :
    ∃ consumed, all = consumed ++ c.reads ∧ Accounts (messagesOf consumed) c.dispatched := by
  obtain ⟨⟨consumed, hall, hcalls, hhandled, hpty⟩, -⟩ := h
  exact ⟨consumed, hall, hcalls, hhandled, hpty⟩

/-- A read of `main_loop` itself. -/
theorem keepsOrder_read_iff {all : List (Option FepControlMessage)} {c : ClientLink e}
    (hc : InOrder all c) :
    KeepsOrder all (linkStep c .read) ↔ StepEndsWell (.ok (some c)) .read := by
  obtain ⟨consumed, hall, haccounts⟩ := hc.accounts
  rw [linkStep, StepEndsWell]
  by_cases hclosed : c.closed = true
  · rw [if_pos hclosed]
    exact iff_of_true hc (Or.inl hclosed)
  rw [if_neg hclosed, or_iff_right hclosed]
  cases hreads : c.reads with
  | nil =>
    cases hfault : c.fault with
    | none => exact iff_of_true trivial rfl
    | some fault => exact iff_of_false id (by simp)
  | cons read reads =>
    cases read with
    | none =>
      refine iff_of_true (?_ : InOrder all { c with reads := reads, closed := true }) trivial
      refine inOrder_of_accounts (consumed ++ [none]) (by simp [hall, hreads]) ?_ hc.returned
      simpa using haccounts
    | some message =>
      refine Iff.trans ?_ (isOk_dispatchControlMessage_iff c.dispatched message)
      show KeepsOrder all (dispatchControlMessage c.dispatched message >>= _) ↔ _
      cases hrun : dispatchControlMessage c.dispatched message with
      | error fault => exact iff_of_false id (by simp)
      | ok r =>
        refine iff_of_true
          (?_ : InOrder all { c with reads := reads, dispatched := r.2 }) ⟨r, rfl⟩
        refine inOrder_of_accounts (consumed ++ [some message]) (by simp [hall, hreads]) ?_ hc.returned
        rw [messagesOf_append, messagesOf_some]
        exact haccounts.dispatches rfl (dispatches_of_ok hrun)

/-- A request to the client, with whatever arrives before its RESPONSE. -/
theorem keepsOrder_transceive_iff {all : List (Option FepControlMessage)} {c : ClientLink e}
    (hc : InOrder all c) (request : FepControlMessage) (results : List WriteResult) :
    KeepsOrder all (linkStep c (.transceive request results)) ↔
      StepEndsWell (.ok (some c)) (.transceive request results) := by
  obtain ⟨consumed, hall, haccounts⟩ := hc.accounts
  rw [linkStep, StepEndsWell]
  by_cases hclosed : c.closed = true
  · rw [if_pos hclosed]
    exact iff_of_true hc (Or.inl hclosed)
  rw [if_neg hclosed, or_iff_right hclosed]
  by_cases hwrite : (writeControlMessage e.platform results request).retval < 0
  · refine iff_of_true ?_ (Or.inl hwrite)
    rw [transceiveControlMessage_of_unwritten c hwrite]
    refine inOrder_of_accounts consumed hall haccounts ?_
    intro t ht hwritten
    rcases List.mem_append.mp ht with ht | ht
    · exact hc.returned t ht hwritten
    · obtain rfl := List.mem_singleton.mp ht
      exact absurd (of_decide_eq_true hwritten) (by omega)
  rw [or_iff_right hwrite]
  by_cases hends : EndsWell c request
  · refine iff_of_true ?_ hends
    obtain ⟨o, ho, hspec⟩ := transceiveControlMessage_of_endsWell c hwrite hends
    rw [ho]
    cases o with
    | none => trivial
    | some result =>
      obtain ⟨retval, c₁⟩ := result
      obtain ⟨⟨more, htrans⟩, hretval⟩ := hspec retval c₁ rfl
      apply inOrder_of_accounts (consumed ++ more)
      · rw [hall, htrans.reads, List.append_assoc]
      · rw [messagesOf_append]
        exact haccounts.dispatches (by simp [List.filter_filter]) htrans.dispatched
      · intro t ht hwritten
        rcases List.mem_append.mp ht with ht | ht
        · exact hc.returned t (htrans.transceived ▸ ht) hwritten
        · obtain rfl := List.mem_singleton.mp ht
          exact hretval
  · obtain ⟨fault, hfault⟩ := transceiveControlMessage_of_not_endsWell c hwrite hends
    rw [hfault]
    exact iff_of_false id hends

/-- One operation keeps the order exactly when it does not run into a fault. -/
theorem keepsOrder_linkRunStep_iff {all : List (Option FepControlMessage)}
    (r : Except Fault (Option (ClientLink e))) (op : LinkOp e) (hr : KeepsOrder all r) :
    KeepsOrder all (linkRunStep r op) ↔ StepEndsWell r op := by
  match r, hr with
  | .ok none, _ => exact iff_of_true trivial trivial
  | .ok (some c), hr =>
    show KeepsOrder all (linkStep c op) ↔ _
    cases op with
    | read => exact keepsOrder_read_iff hr
    | transceive request results => exact keepsOrder_transceive_iff hr request results
    | elsewhere fep => exact iff_of_true ⟨hr.dispatched, hr.returned⟩ trivial

theorem forall_keepsOrder_iff {all : List (Option FepControlMessage)} {c : ClientLink e}
    (hc : InOrder all c) (ops : List (LinkOp e)) :
    (∀ r ∈ states linkRunStep (.ok (some c)) ops, KeepsOrder all r) ↔
      ∀ x ∈ transitions linkRunStep (.ok (some c)) ops, StepEndsWell x.1 x.2 :=
  forall_states_iff (fun r op hr (_ : True) => keepsOrder_linkRunStep_iff r op hr)
    (show KeepsOrder all (.ok (some c)) from hc) (fun _ _ => trivial)

/-- On the stream of a well-formed list of messages, read back completely, the messages dispatched
are those that were written, up to the point that the reads have come to. -/
theorem dispatched_of_wire (e : Setting) (fep : Fep e.locale) (messages : List WireMessage)
    (ops : List (LinkOp e)) (h : Readable e.platform (messages.map (·.toFepControlMessage))) {fd : Fd}
    (hfd : fd = ⟨wire e.platform (messages.map (·.toFepControlMessage)),
      List.replicate (messages.map (·.reads)).sum .full⟩)
    (hends : ∀ x ∈ transitions linkRunStep (.ok (some (ClientLink.new fep fd))) ops,
      StepEndsWell x.1 x.2) {c : ClientLink e}
    (hrun : ops.foldl linkRunStep (.ok (some (ClientLink.new fep fd))) = .ok (some c)) :
    c.dispatched.calls.filter ToDispatch =
      ((messages.map (·.toFepControlMessage)).take (messages.length - c.reads.length)).filter
        ToDispatch := by
  have hempty : readSequence e.platform ⟨[], []⟩ = [] := by
    rw [readSequence]
    rfl
  have hwire := readSequence_wire e.platform messages [] [] h
  rw [List.append_nil, List.append_nil, hempty, List.append_nil, ← hfd] at hwire
  have hlast := (forall_keepsOrder_iff (inOrder_new fep fd) ops).mpr hends _
    (foldl_mem_states linkRunStep _ ops)
  rw [hrun] at hlast
  obtain ⟨⟨consumed, hall, hcalls, -⟩, -⟩ := hlast
  rw [hwire] at hall
  have hlen := congrArg List.length hall
  rw [List.length_map, List.length_append] at hlen
  have htake : consumed = (messages.map (some ·.toFepControlMessage)).take
      (messages.length - c.reads.length) := by
    rw [hall, show messages.length - c.reads.length = consumed.length from by omega,
      List.take_left]
  rw [hcalls, htake, messagesOf, ← List.map_take, ← List.map_take, List.filterMap_map]
  simp

end LibFep
