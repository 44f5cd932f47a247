import Mathlib.Logic.Function.Basic
import Mathlib.Logic.Relation
import LibFep.Client.Dispatch
import LibFep.Input.KeyLoop
import LibFep.Server.ClientRuns
import LibFep.Server.Transceive

/-!
# LibFep — keys between the server and its clients

The server and `n` clients with the messages in flight between them. `main_loop` takes a key from
the tty, sends it to one client after the other and waits for each to respond; a client answers
with `fep_client_dispatch`. What the server writes to the pty is recorded with the party it comes
from.

* **`Step`** — the steps, each a piece of `main_loop`, of `_fep_transceive_control_message` or of
  `fep_client_dispatch`. The parties take them in any order.
* **`Inv`** — what holds between the server and each client: all that a client has been asked is
  answered on the pty, in the queue of the server, in flight, or still to come, in this order.

The sockets carry messages in order, and none is lost. A message is taken only if it is read back as it was
written: behind one that is not, nothing is taken any more. The server takes no step that ends with a
fault in a handler, so that it stays where it is. A client is between two dispatches until its last message
has been handed to the socket, while the server may go on with the response as soon as it has arrived.
-/

namespace LibFep

open Lib

/-- A key as it is typed, with what the filter of each client does about it: a filter may answer the
same key in another way the next time. -/
structure TypedKey (n : Nat) extends Key where
  filters : Fin n → Option FepEventFilter

/-- The event that a filter sees for the key. -/
def Key.event (key : Key) : FepEvent := .keyPress key.keyval key.state key.source

theorem validRequest_keyRequest (p : Platform) (key : Key) : ValidRequest (keyRequest p key) :=
  .keyEvent _ _ _ (by simp) (by simp)

theorem requestEvent_keyRequest (p : Platform) (key : Key) :
    requestEvent p (keyRequest p key) = key.event := by
  show FepEvent.keyPress (p.uint32Of (p.wireWord key.keyval)) (p.uint32Of (p.wireWord key.state))
    key.source = _
  rw [uint32Of_wireWord, uint32Of_wireWord, Key.event]

/-! ## The system -/

variable {n : Nat}

/-- Where the server is in `main_loop`. -/
inductive Phase (n : Nat) where
  | idle
  /-- The loop over the clients has come to index `j`. -/
  | broadcast (key : TypedKey n) (j : Nat) (handled : Bool)
  /-- `_fep_transceive_control_message` waits for client `j`, with the messages it has queued. -/
  | waiting (key : TypedKey n) (j : Fin n) (handled : Bool) (heap : NodeHeap FepControlMessage)
      (messages : Option Nat)

/-- What has been written to the pty: each piece with the client whose message it comes from, or
`none` for a key that the server has written itself. -/
abbrev Pty (n : Nat) := List (Option (Fin n) × List UInt8)

structure System (e : Setting) (n : Nat) where
  /-- The keys that are still to be typed. -/
  typed : List (TypedKey n)
  phase : Phase n
  /-- What the server knows of the screen. -/
  fep : Fep e.locale
  pty : Pty n
  /-- The requests on their way to a client, each with what the filter will do about it. -/
  inbox : Fin n → List (Option FepEventFilter × FepControlMessage)
  client : Fin n → FepClient
  /-- The messages a client has still to write. -/
  outbox : Fin n → List FepControlMessage
  /-- The messages on their way to the server. -/
  channel : Fin n → List FepControlMessage

variable {e : Setting}

/-- The clients are connected, nothing has been typed yet, and no message is under way. -/
def System.start (fep : Fep e.locale) (keys : List (TypedKey n)) : System e n where
  typed := keys
  phase := .idle
  fep := fep
  pty := []
  inbox _ := []
  client _ := FepClient.new []
  outbox _ := []
  channel _ := []

/-- The effect of dispatching a message on the screen and on the pty. -/
def handleMessage (j : Fin n) (shown : Fep e.locale × Pty n) (message : FepControlMessage) :
    Except Fault (Fep e.locale × Pty n) := do
  let (fep, pieces) ← runHandler e shown.1 message
  return (fep, shown.2 ++ pieces.map (some j, ·))

/-- One step of the server or of a client. -/
inductive Step : System e n → System e n → Prop
  /-- `main_loop` reads a key from the tty. -/
  | readKey {s : System e n} {key : TypedKey n} {rest : List (TypedKey n)} (hphase : s.phase = .idle)
      (htyped : s.typed = key :: rest) :
      Step s { s with phase := .broadcast key 0 false, typed := rest }
  /-- The request is written to client `j`. -/
  | sendRequest {s : System e n} {key : TypedKey n} {j : Fin n} {handled : Bool}
      (hphase : s.phase = .broadcast key j handled) :
      Step s { s with
        phase := .waiting key j handled .empty none
        inbox := Function.update s.inbox j
          (s.inbox j ++ [(key.filters j, keyRequest e.platform key.toKey)]) }
  /-- A message that is no RESPONSE is queued. -/
  | queueMessage {s : System e n} {key : TypedKey n} {j : Fin n} {handled : Bool}
      {heap heap' : NodeHeap FepControlMessage} {messages messages' : Option Nat}
      {message : FepControlMessage} {rest : List FepControlMessage}
      (hphase : s.phase = .waiting key j handled heap messages)
      (hchannel : s.channel j = message :: rest) (hread : Readable e.platform [message])
      (hcommand : message.command ≠ .response)
      (happend : appendControlMessage heap messages message = .ok (heap', messages')) :
      Step s { s with
        phase := .waiting key j handled heap' messages'
        channel := Function.update s.channel j rest }
  /-- A RESPONSE ends the wait; the queue is flushed. -/
  | takeResponse {s : System e n} {key : TypedKey n} {j : Fin n} {handled : Bool}
      {heap heap' : NodeHeap FepControlMessage} {messages : Option Nat}
      {message : FepControlMessage} {rest : List FepControlMessage} {retval : Int}
      {fep' : Fep e.locale} {pty' : Pty n}
      (hphase : s.phase = .waiting key j handled heap messages)
      (hchannel : s.channel j = message :: rest) (hread : Readable e.platform [message])
      (hcommand : message.command = .response)
      (hcheck : checkResponse e.platform (keyRequest e.platform key.toKey) message = .ok retval)
      (hflush : flushMessages (handleMessage j) heap messages (s.fep, s.pty) =
        .ok (heap', fep', pty')) :
      Step s { s with
        phase := .broadcast key (j + 1) (handled || decide (retval = 0))
        fep := fep'
        pty := pty'
        channel := Function.update s.channel j rest }
  /-- All clients have been asked; a key that is not marked as handled goes to the pty. -/
  | finishKey {s : System e n} {key : TypedKey n} {handled : Bool}
      (hphase : s.phase = .broadcast key n handled) :
      Step s { s with
        phase := .idle
        pty := if handled then s.pty else s.pty ++ [(none, key.source)] }
  /-- `main_loop` reads a message of a client and dispatches it. -/
  | readMessage {s : System e n} {j : Fin n} {message : FepControlMessage}
      {rest : List FepControlMessage} {fep' : Fep e.locale} {pty' : Pty n}
      (hphase : s.phase = .idle) (hchannel : s.channel j = message :: rest)
      (hread : Readable e.platform [message])
      (hhandle : handleMessage j (s.fep, s.pty) message = .ok (fep', pty')) :
      Step s { s with
        fep := fep'
        pty := pty'
        channel := Function.update s.channel j rest }
  /-- A client runs `fep_client_dispatch`; what it writes is still to be taken by the socket. -/
  | dispatch {s : System e n} {i : Fin n} {filter : Option FepEventFilter}
      {request : FepControlMessage} {rest : List (Option FepEventFilter × FepControlMessage)}
      {retval : Int} {client' : FepClient}
      (hinbox : s.inbox i = (filter, request) :: rest) (houtbox : s.outbox i = [])
      (hread : Readable e.platform [request])
      (hrun : dispatchRequest e.platform filter (s.client i) request = .ok (retval, client')) :
      Step s { s with
        inbox := Function.update s.inbox i rest
        client := Function.update s.client i client'
        outbox := Function.update s.outbox i
          (client'.written.drop (s.client i).written.length) }
  /-- The socket takes a message from a client. -/
  | deliver {s : System e n} {i : Fin n} {message : FepControlMessage}
      {rest : List FepControlMessage} (houtbox : s.outbox i = message :: rest) :
      Step s { s with
        outbox := Function.update s.outbox i rest
        channel := Function.update s.channel i (s.channel i ++ [message]) }

/-- The idle server shows the beginning of a buffer of the child's output. -/
inductive Echo : System e n → System e n → Prop
  | childOutput {s : System e n} {str : List UInt8} {strLen : Nat} {fep' : Fep e.locale}
      (hphase : s.phase = .idle) (hlen : strLen ≤ str.length)
      (hrun : outputStringFromPty e.platform s.fep str strLen = .ok fep') :
      Echo s { s with fep := fep' }

/-- The start of a system: the table of the server has taken `n` clients. -/
structure Starts (keys : List (TypedKey n)) (s : System e n) : Prop where
  accepted : ∃ fds server, fds.length = n ∧ (∀ fd ∈ fds, fd.msb = false) ∧
    acceptAll e.platform .new fds = .ok server
  started : ∃ fep, ScreenStart fep ∧ s = .start fep keys

/-- The states that a system comes to from its start. -/
def Reachable (keys : List (TypedKey n)) (s : System e n) : Prop :=
  ∃ s₀, Starts keys s₀ ∧ Relation.ReflTransGen (fun a b => Step a b ∨ Echo a b) s₀ s

/-- Every key has been typed and every message processed. -/
structure AtRest (s : System e n) : Prop where
  phase : s.phase = .idle
  typed : s.typed = []
  inbox : ∀ i, s.inbox i = []
  outbox : ∀ i, s.outbox i = []
  channel : ∀ i, s.channel i = []

/-! ## The invariant -/

/-- What messages write to the pty. -/
def dataOf (e : Setting) (messages : List FepControlMessage) : List (List UInt8) :=
  messages.flatMap (ptyOutput e)

@[simp] theorem dataOf_nil : dataOf e [] = [] := rfl

@[simp] theorem dataOf_append (messages messages' : List FepControlMessage) :
    dataOf e (messages ++ messages') = dataOf e messages ++ dataOf e messages' :=
  List.flatMap_append

theorem dataOf_cons (message : FepControlMessage) (messages : List FepControlMessage) :
    dataOf e (message :: messages) = dataOf e [message] ++ dataOf e messages :=
  dataOf_append [message] messages

theorem dataOf_response {message : FepControlMessage} (h : message.command = .response) :
    dataOf e [message] = [] := by
  simp [dataOf, ptyOutput, h]

def Pty.writtenBy (o : Option (Fin n)) (pty : Pty n) : List (List UInt8) :=
  (pty.filter (·.1 = o)).map (·.2)

theorem writtenBy_append (o : Option (Fin n)) (pty pty' : Pty n) :
    Pty.writtenBy o (pty ++ pty') = Pty.writtenBy o pty ++ Pty.writtenBy o pty' := by
  simp [Pty.writtenBy]

theorem handleMessage_ok {j : Fin n} {shown shown' : Fep e.locale × Pty n}
    {message : FepControlMessage} (h : handleMessage j shown message = .ok shown') :
    shown'.2 = shown.2 ++ (ptyOutput e message).map (some j, ·) := by
  obtain ⟨⟨fep, pieces⟩, hrun, h⟩ := bind_eq_ok.mp h
  obtain rfl := runHandler_output hrun
  rw [← Except.ok.inj h]

/-- What a message has written, for the client it is from and for everyone else. -/
theorem writtenBy_handleMessage {j : Fin n} {shown shown' : Fep e.locale × Pty n}
    {message : FepControlMessage} (h : handleMessage j shown message = .ok shown') :
    Pty.writtenBy (some j) shown'.2 = Pty.writtenBy (some j) shown.2 ++ dataOf e [message] ∧
      ∀ o, o ≠ some j → Pty.writtenBy o shown'.2 = Pty.writtenBy o shown.2 := by
  rw [handleMessage_ok h]
  have hall : Pty.writtenBy (some j) ((ptyOutput e message).map (some j, ·)) =
      ptyOutput e message := by
    rw [Pty.writtenBy, List.filter_eq_self.mpr (by simp), List.map_map]
    exact List.map_id _
  refine ⟨by rw [writtenBy_append, hall, dataOf, List.flatMap_singleton], fun o ho => ?_⟩
  have hnone : Pty.writtenBy o ((ptyOutput e message).map (some j, ·)) = [] := by
    rw [Pty.writtenBy, List.filter_eq_nil_iff.mpr, List.map_nil]
    simp [Ne.symm ho]
  rw [writtenBy_append, hnone, List.append_nil]

/-- The flush of a queue. -/
theorem writtenBy_foldlM_handleMessage {j : Fin n} {shown shown' : Fep e.locale × Pty n}
    {messages : List FepControlMessage}
    (h : messages.foldlM (handleMessage j) shown = .ok shown') :
    Pty.writtenBy (some j) shown'.2 = Pty.writtenBy (some j) shown.2 ++ dataOf e messages ∧
      ∀ o, o ≠ some j → Pty.writtenBy o shown'.2 = Pty.writtenBy o shown.2 := by
  induction messages generalizing shown with
  | nil =>
    obtain rfl := Except.ok.inj h
    exact ⟨by simp, fun _ _ => rfl⟩
  | cons message messages ih =>
    rw [List.foldlM_cons] at h
    obtain ⟨mid, hfirst, hrest⟩ := bind_eq_ok.mp h
    obtain ⟨hself, hother⟩ := ih hrest
    obtain ⟨hself₁, hother₁⟩ := writtenBy_handleMessage hfirst
    refine ⟨?_, fun o ho => (hother o ho).trans (hother₁ o ho)⟩
    rw [hself, hself₁, dataOf_cons message messages, List.append_assoc]

/-- The key the server is busy with. -/
def Phase.current : Phase n → List (TypedKey n)
  | .idle => []
  | .broadcast key _ _ | .waiting key _ _ _ _ => [key]

/-- That key, if it has been sent to client `i` already. -/
def Phase.asked (i : Fin n) : Phase n → List (TypedKey n)
  | .idle => []
  | .broadcast key j _ => if i.val < j then [key] else []
  | .waiting key j _ _ _ => if i.val ≤ j.val then [key] else []

/-- The messages of client `i` that the server has queued. -/
def Phase.Queue (i : Fin n) : Phase n → List FepControlMessage → Prop
  | .idle, queue | .broadcast _ _ _, queue => queue = []
  | .waiting _ j _ heap messages, queue =>
    if i = j then NodeHeap.IsQueue heap messages queue else queue = []

/-- After the first response the key counts as handled. -/
def Phase.Marked : Phase n → Prop
  | .idle => True
  | .broadcast _ j handled => j ≤ n ∧ (0 < j → handled = true)
  | .waiting _ j handled _ _ => 0 < j.val → handled = true

/-- The data that a client sends in answer to a request: what its filter asks for, and the key if it
is not handled. -/
def answeredData (e : Setting) (filter : Option FepEventFilter) (request : FepControlMessage) :
    List (List UInt8) :=
  dataOf e (expectedMessages e.platform filter request)

/-- What holds between the server and client `i` when the keys `done` have been dealt with: what
the client has been asked is answered on the pty, in the server's queue, in flight, or still to
come, in this order. -/
structure ClientInv (s : System e n) (done : List (TypedKey n)) (i : Fin n) :
    Prop where
  idle : Idle (s.client i)
  requests : ∀ r ∈ s.inbox i, ∃ key : TypedKey n, r = (key.filters i, keyRequest e.platform key.toKey)
  responses : ∀ message ∈ s.channel i ++ s.outbox i, message.command = .response →
    message.args.head? = some [FepControlCommand.keyEvent.toByte]
  conserved : ∃ queue, s.phase.Queue i queue ∧
    Pty.writtenBy (some i) s.pty ++ dataOf e queue ++ dataOf e (s.channel i) ++ dataOf e (s.outbox i)
        ++ (s.inbox i).flatMap (fun r => answeredData e r.1 r.2) =
      (done ++ s.phase.asked i).flatMap fun key =>
        answeredData e (key.filters i) (keyRequest e.platform key.toKey)

/-- What holds in every state, for the keys typed from the start on. -/
def Inv (keys : List (TypedKey n)) (s : System e n) : Prop :=
  ∃ done, keys = done ++ s.phase.current ++ s.typed ∧ s.phase.Marked ∧
    Pty.writtenBy none s.pty = [] ∧ ∀ i, ClientInv s done i

/-- The invariant of a client from its parts after a step. -/
theorem ClientInv.of_parts {s : System e n} {done a : List (TypedKey n)} {i : Fin n}
    {inbox : List (Option FepEventFilter × FepControlMessage)}
    {outbox channel q : List FepControlMessage}
    {written : List (List UInt8)} (hinbox : s.inbox i = inbox) (houtbox : s.outbox i = outbox)
    (hchannel : s.channel i = channel) (hwritten : Pty.writtenBy (some i) s.pty = written)
    (hqueue : s.phase.Queue i q) (hasked : done ++ s.phase.asked i = a)
    (hidle : Idle (s.client i))
    (hrequests : ∀ r ∈ inbox, ∃ key : TypedKey n, r = (key.filters i, keyRequest e.platform key.toKey))
    (hresponses : ∀ message ∈ channel ++ outbox, message.command = .response →
      message.args.head? = some [FepControlCommand.keyEvent.toByte])
    (hconserved : written ++ dataOf e q ++ dataOf e channel ++ dataOf e outbox
        ++ inbox.flatMap (fun r => answeredData e r.1 r.2) =
      a.flatMap fun key => answeredData e (key.filters i) (keyRequest e.platform key.toKey)) :
    ClientInv s done i := by
  subst hinbox houtbox hchannel hwritten hasked
  exact ⟨hidle, hrequests, hresponses, q, hqueue, hconserved⟩

theorem ClientInv.frame {s s' : System e n} {done done' : List (TypedKey n)} {i : Fin n}
    (h : ClientInv s done i)
    (hinbox : s'.inbox i = s.inbox i) (hclient : s'.client i = s.client i)
    (houtbox : s'.outbox i = s.outbox i) (hchannel : s'.channel i = s.channel i)
    (hpty : Pty.writtenBy (some i) s'.pty = Pty.writtenBy (some i) s.pty)
    (hqueue : ∀ queue, s.phase.Queue i queue → s'.phase.Queue i queue)
    (hasked : done' ++ s'.phase.asked i = done ++ s.phase.asked i) :
    ClientInv s' done' i where
  idle := by rw [hclient]; exact h.idle
  requests := by rw [hinbox]; exact h.requests
  responses := by rw [hchannel, houtbox]; exact h.responses
  conserved := by
    obtain ⟨queue, hq, heq⟩ := h.conserved
    refine ⟨queue, hqueue queue hq, ?_⟩
    rw [hinbox, houtbox, hchannel, hpty, hasked]
    exact heq

end LibFep
