import LibFep.Control.MessageList
import LibFep.Control.Wire

/-!
# LibFep — the requests of a client

`struct _FepClient` and the five request functions of `libfep/client.c`. Each builds a message and
writes it to the control socket, or queues a copy of it while an event filter runs.

* **`performRequest_eq`** — what the five have in common: the message a request stands for,
  `ClientRequest.message`, is built without a fault and handed to `clientRequest`.
-/

namespace LibFep

open Lib

structure FepClient where
  /-- The results of the next `write` calls on the control socket. -/
  results : List WriteResult
  /-- The messages that `_fep_write_control_message` has been called with. -/
  written : List FepControlMessage
  /-- The bytes that the control socket has accepted. -/
  sent : List UInt8
  filterRunning : Bool
  heap : NodeHeap FepControlMessage
  messages : Option Nat

/-- The client as `fep_client_open` makes it. -/
def FepClient.new (results : List WriteResult) : FepClient where
  results := results
  written := []
  sent := []
  filterRunning := false
  heap := .empty
  messages := none

/-- A call of `_fep_write_control_message`. No caller looks at its return value. -/
def FepClient.write (p : Platform) (client : FepClient) (message : FepControlMessage) :
    FepClient :=
  let w := writeControlMessage p client.results message
  { client with
    results := w.results
    written := client.written ++ [message]
    sent := client.sent ++ w.bytes }

/-- The end of each of the request functions. -/
def clientRequest (p : Platform) (client : FepClient) (message : FepControlMessage) :
    Except Fault FepClient :=
  -- while a filter runs, the response has to be written first
  if client.filterRunning then do
    let (heap, messages) ← appendControlMessage client.heap client.messages message
    return { client with heap := heap, messages := messages }
  else .ok (client.write p message)

/-- `empty_attr`, of type `FEP_ATTR_TYPE_NONE`. -/
def emptyAttr : FepAttribute := ⟨3, 0, 0, 0⟩

/-- The `strlen (text) + 1` bytes of a C string. -/
def cString (text : List UInt8) : List UInt8 := text.takeWhile (· ≠ 0) ++ [0]

/-- The two request functions with a text and an attribute. -/
def clientTextRequest (p : Platform) (client : FepClient) (command : FepControlCommand)
    (text : List UInt8) (attr : Option FepAttribute) : Except Fault FepClient := do
  let (_, message) ← controlMessageWriteStringArg (controlMessageAllocArgs command 2) 0
    (cString text)
  let (_, message) ← controlMessageWriteAttributeArg p message 1 (attr.getD emptyAttr)
  clientRequest p client message

def fepClientSetCursorText (p : Platform) (client : FepClient) (text : List UInt8)
    (attr : Option FepAttribute) : Except Fault FepClient :=
  clientTextRequest p client .setCursorText text attr

def fepClientSetStatusText (p : Platform) (client : FepClient) (text : List UInt8)
    (attr : Option FepAttribute) : Except Fault FepClient :=
  clientTextRequest p client .setStatusText text attr

def fepClientSendText (p : Platform) (client : FepClient) (text : List UInt8) :
    Except Fault FepClient := do
  let (_, message) ← controlMessageWriteStringArg (controlMessageAllocArgs .sendText 1) 0
    (cString text)
  clientRequest p client message

def fepClientSendData (p : Platform) (client : FepClient) (data : List UInt8) :
    Except Fault FepClient := do
  let (_, message) ← controlMessageWriteStringArg (controlMessageAllocArgs .sendData 1) 0 data
  clientRequest p client message

def fepClientForwardKeyEvent (p : Platform) (client : FepClient) (keyval modifiers : BitVec 32) :
    Except Fault FepClient := do
  let (_, message) ← controlMessageWriteUint32Arg p
    (controlMessageAllocArgs .forwardKeyEvent 2) 0 keyval
  let (_, message) ← controlMessageWriteUint32Arg p message 1 modifiers
  clientRequest p client message

/-! ## Requests as data -/

inductive ClientRequest where
  | setCursorText (text : List UInt8) (attr : Option FepAttribute)
  | setStatusText (text : List UInt8) (attr : Option FepAttribute)
  | sendText (text : List UInt8)
  | sendData (data : List UInt8)
  | forwardKeyEvent (keyval modifiers : BitVec 32)
  deriving DecidableEq, Repr

/-- The call that a request stands for. -/
def performRequest (p : Platform) (client : FepClient) :
    ClientRequest → Except Fault FepClient
  | .setCursorText text attr => fepClientSetCursorText p client text attr
  | .setStatusText text attr => fepClientSetStatusText p client text attr
  | .sendText text => fepClientSendText p client text
  | .sendData data => fepClientSendData p client data
  | .forwardKeyEvent keyval modifiers => fepClientForwardKeyEvent p client keyval modifiers

def ClientRequest.message (p : Platform) : ClientRequest → FepControlMessage
  | .setCursorText text attr =>
    ⟨.setCursorText, [cString text, p.wireAttribute (attr.getD emptyAttr)]⟩
  | .setStatusText text attr =>
    ⟨.setStatusText, [cString text, p.wireAttribute (attr.getD emptyAttr)]⟩
  | .sendText text => ⟨.sendText, [cString text]⟩
  | .sendData data => ⟨.sendData, [data]⟩
  | .forwardKeyEvent keyval modifiers =>
    ⟨.forwardKeyEvent, [p.wireWord keyval, p.wireWord modifiers]⟩

theorem performRequest_eq (p : Platform) (client : FepClient) (r : ClientRequest) :
    performRequest p client r = clientRequest p client (r.message p) := by
  cases r <;> rfl

/-! ## Queueing and writing -/

/-- The client holds `queue` in its list of messages. -/
def FepClient.Queues (client : FepClient) (queue : List FepControlMessage) : Prop :=
  NodeHeap.IsQueue client.heap client.messages queue

/-- While a filter runs: `queue` is what has been requested so far, and the socket is as it was at
`start`. -/
structure Holding (start client : FepClient) (queue : List FepControlMessage) : Prop where
  queues : client.Queues queue
  running : client.filterRunning = true
  written : client.written = start.written
  sent : client.sent = start.sent
  results : client.results = start.results

theorem Holding.request (p : Platform) {start client : FepClient} {queue : List FepControlMessage}
    (h : Holding start client queue) (message : FepControlMessage) :
    ∃ client', clientRequest p client message = .ok client' ∧
      Holding start client' (queue ++ [message]) := by
  obtain ⟨heap, messages, happend, hq'⟩ := fepListAppend_isQueue h.queues message
  refine ⟨{ client with heap := heap, messages := messages }, ?_,
    ⟨hq', h.running, h.written, h.sent, h.results⟩⟩
  rw [clientRequest, if_pos h.running, appendControlMessage, happend]
  rfl

theorem clientRequest_idle (p : Platform) {client : FepClient}
    (hidle : client.filterRunning = false) (message : FepControlMessage) :
    clientRequest p client message = .ok (client.write p message) := by
  rw [clientRequest, hidle]
  rfl

theorem written_foldl_write (p : Platform) (client : FepClient)
    (messages : List FepControlMessage) :
    (messages.foldl (FepClient.write p) client).written = client.written ++ messages := by
  induction messages generalizing client with
  | nil => simp
  | cons message messages ih =>
    rw [List.foldl_cons, ih]
    simp [FepClient.write]

theorem sent_foldl_write (p : Platform) {client : FepClient} (hres : client.results = [])
    (messages : List FepControlMessage) :
    (messages.foldl (FepClient.write p) client).sent = client.sent ++ wire p messages ∧
      (messages.foldl (FepClient.write p) client).results = [] := by
  induction messages generalizing client with
  | nil => simp [hres]
  | cons message messages ih =>
    -- the first write is complete, and so are those behind it
    have hwrite := writeControlMessage_complete p message
    obtain ⟨hsent, hres'⟩ := @ih (client.write p message) (by
      simp [FepClient.write, hres, hwrite])
    rw [List.foldl_cons]
    refine ⟨?_, hres'⟩
    rw [hsent]
    simp [FepClient.write, hres, hwrite]

theorem state_foldl_write (p : Platform) (client : FepClient) (messages : List FepControlMessage) :
    (messages.foldl (FepClient.write p) client).filterRunning = client.filterRunning ∧
      (messages.foldl (FepClient.write p) client).heap = client.heap ∧
      (messages.foldl (FepClient.write p) client).messages = client.messages := by
  induction messages generalizing client with
  | nil => exact ⟨rfl, rfl, rfl⟩
  | cons message messages ih => exact ih (client.write p message)

end LibFep
