import Mathlib.Logic.Function.Basic
import Mathlib.Logic.Relation
import LibFep.Client.Dispatch
import LibFep.Input.KeyLoop
import LibFep.Protocol.Progress
import LibFep.Server.Geometry
import LibFep.Server.Transceive

/-!
# LibFep — a session

The whole traffic between the server and its clients: `main_loop` sends keys, `handle_winch_signal`
sends window changes, clients connect while it runs, and a program that uses a client makes requests
whenever it likes, not only from its event filter. The filter may change at any time.

* **`Session.Move`** — what the server, the clients and the sockets do of themselves.
* **`Session.Arrival`** — what comes from outside: an event, a client, a request of a program.
* **`Session.Inv`** — what holds between the server and each client. Of the requests to a client one
  is open at most, and then the server waits for that client; what a client has written, apart from the
  responses, is dispatched, queued or on its way, in this order.

The sockets carry messages in order, and none is lost. No client goes away, and no more of them connect than
the table of the server has room for. The requests of the programs, of the filters and of the server are
such that the other side reads them back as they were written and gets through its handler.
-/

namespace LibFep

open Lib

/-! ## Events and requests -/

/-- What the server tells its clients about. A window change comes with the size that is sent. -/
inductive ServerEvent where
  | key (key : Key)
  | resize (size : Winsize)
  deriving DecidableEq, Repr

def ServerEvent.request (p : Platform) : ServerEvent → FepControlMessage
  | .key k => keyRequest p k
  | .resize size => resizeRequest p size

def ServerEvent.key? : ServerEvent → Option Key
  | .key k => some k
  | .resize _ => none

/-- What the server shows when it notices a window change: the clients are sent the size of before. -/
def ServerEvent.Shows {loc : Locale} (fep fep' : Fep loc) : ServerEvent → Prop
  | .key _ => fep' = fep
  | .resize size => size = fep.winsize ∧ ∃ reported, handleWinchSignal fep reported = .ok fep'

theorem validRequest_request (p : Platform) (event : ServerEvent) :
    ValidRequest (event.request p) := by
  cases event with
  | key k => exact validRequest_keyRequest p k
  | resize size =>
    exact .resizeEvent (p.wireWord (size.wsCol.setWidth 32)) (p.wireWord (size.wsRow.setWidth 32))
      (by simp) (by simp)

/-- The RESPONSE that `_fep_transceive_control_message` waits for names the command. -/
def Answers (request message : FepControlMessage) : Prop :=
  message.args.head? = some [request.command.toByte]

theorem checkResponse_of_answers (p : Platform) {request message : FepControlMessage}
    (h : Answers request message) : checkResponse p request message = .ok 0 := by
  have hcheckable : Checkable request message := by
    intro byte hbyte
    rw [h] at hbyte
    exact (List.cons.inj (Option.some.inj hbyte)).1.symm
  rw [checkResponse_of_checkable p hcheckable, h]
  simp

/-- What the program with the client has done: a request of the server answered with the filter of
the time, or a request of its own. -/
inductive ClientAct where
  | answered (filter : Option FepEventFilter) (request : FepControlMessage)
  | asked (r : ClientRequest)

def ClientAct.request? : ClientAct → Option FepControlMessage
  | .answered _ request => some request
  | .asked _ => none

/-- What it has written, without the responses. -/
def ClientAct.messages (p : Platform) : ClientAct → List FepControlMessage
  | .answered filter request => requestedMessages p filter request ++ sentBack p filter request
  | .asked r => [r.message p]

/-- The messages that are no responses. -/
def requestsIn (messages : List FepControlMessage) : List FepControlMessage :=
  messages.filter ToDispatch

@[simp] theorem requestsIn_nil : requestsIn [] = [] := rfl

@[simp] theorem requestsIn_append (messages messages' : List FepControlMessage) :
    requestsIn (messages ++ messages') = requestsIn messages ++ requestsIn messages' :=
  List.filter_append ..

theorem requestsIn_cons_of_response {message : FepControlMessage}
    (h : message.command = .response) (messages : List FepControlMessage) :
    requestsIn (message :: messages) = requestsIn messages := by
  simp [requestsIn, ToDispatch, h]

theorem requestsIn_cons_of_ne {message : FepControlMessage} (h : message.command ≠ .response)
    (messages : List FepControlMessage) :
    requestsIn (message :: messages) = message :: requestsIn messages := by
  simp [requestsIn, ToDispatch, h]

theorem requestsIn_expectedMessages (p : Platform) (filter : Option FepEventFilter)
    (request : FepControlMessage) :
    requestsIn (expectedMessages p filter request) =
      (ClientAct.answered filter request).messages p := by
  rw [expectedMessages, requestsIn_cons_of_response rfl]
  apply List.filter_eq_self.mpr
  intro message hmem
  exact decide_eq_true (command_ne_response_of_mem p filter request message hmem)

/-! ## The system -/

variable {n : Nat}

/-- Where the server is in `main_loop`. -/
inductive SessionPhase (n : Nat) where
  | idle
  /-- The loop over the clients has come to index `j`. -/
  | broadcast (event : ServerEvent) (j : Nat) (handled : Bool)
  /-- `_fep_transceive_control_message` waits for client `j`, with the messages it has queued. -/
  | waiting (event : ServerEvent) (j : Fin n) (handled : Bool) (heap : NodeHeap FepControlMessage)
      (messages : Option Nat)

/-- What the server has done about a message or a key. The clients are known as `ι` says. -/
inductive ServerAct (ι : Type) where
  /-- `_fep_dispatch_control_message` with a message of client `i`. -/
  | dispatch (i : ι) (message : FepControlMessage)
  /-- A key that is not marked as handled is written to the pty. -/
  | writeKey (key : Key)

/-- The server and its clients, of which there are `n` at most. -/
structure Session (e : Setting) (n : Nat) where
  /-- The events that the server is done with, each with the number of clients it was sent to. -/
  past : List (ServerEvent × Nat)
  /-- `fep->n_clients`. -/
  connected : Nat
  phase : SessionPhase n
  /-- What the server knows of the screen. -/
  fep : Fep e.locale
  acts : List (ServerAct (Fin n))
  /-- The requests on their way to a client. -/
  inbox : Fin n → List FepControlMessage
  client : Fin n → FepClient
  /-- What the program of a client has done. -/
  done : Fin n → List ClientAct
  /-- The messages a client has still to write. -/
  outbox : Fin n → List FepControlMessage
  /-- The messages on their way to the server. -/
  channel : Fin n → List FepControlMessage

variable {e : Setting}

namespace Session

/-- No client is connected, and nothing has happened. -/
def start (fep : Fep e.locale) (n : Nat) : Session e n where
  past := []
  connected := 0
  phase := .idle
  fep := fep
  acts := []
  inbox _ := []
  client _ := FepClient.new []
  done _ := []
  outbox _ := []
  channel _ := []

/-- The screen, and what the server has done. -/
def dispatchOf (i : Fin n) (done : Fep e.locale × List (ServerAct (Fin n)))
    (message : FepControlMessage) : Except Fault (Fep e.locale × List (ServerAct (Fin n))) := do
  let (fep, _) ← runHandler e done.1 message
  return (fep, done.2 ++ [.dispatch i message])

/-- One step of the server, of a client or of a socket. -/
inductive Move : Session e n → Session e n → Prop
  /-- The request is written to client `j`. -/
  | sendRequest {s : Session e n} {event : ServerEvent} {j : Fin n} {handled : Bool}
      (hphase : s.phase = .broadcast event j handled) (hconnected : j.val < s.connected) :
      Move s { s with
        phase := .waiting event j handled .empty none
        inbox := Function.update s.inbox j (s.inbox j ++ [event.request e.platform]) }
  /-- A message that is no RESPONSE is queued. -/
  | queueMessage {s : Session e n} {event : ServerEvent} {j : Fin n} {handled : Bool}
      {heap heap' : NodeHeap FepControlMessage} {messages messages' : Option Nat}
      {message : FepControlMessage} {rest : List FepControlMessage}
      (hphase : s.phase = .waiting event j handled heap messages)
      (hchannel : s.channel j = message :: rest) (hread : Readable e.platform [message])
      (hcommand : message.command ≠ .response)
      (happend : appendControlMessage heap messages message = .ok (heap', messages')) :
      Move s { s with
        phase := .waiting event j handled heap' messages'
        channel := Function.update s.channel j rest }
  /-- A RESPONSE ends the wait; the queue is flushed. -/
  | takeResponse {s : Session e n} {event : ServerEvent} {j : Fin n} {handled : Bool}
      {heap heap' : NodeHeap FepControlMessage} {messages : Option Nat}
      {message : FepControlMessage} {rest : List FepControlMessage} {retval : Int}
      {fep' : Fep e.locale} {acts' : List (ServerAct (Fin n))}
      (hphase : s.phase = .waiting event j handled heap messages)
      (hchannel : s.channel j = message :: rest) (hread : Readable e.platform [message])
      (hcommand : message.command = .response)
      (hcheck : checkResponse e.platform (event.request e.platform) message = .ok retval)
      (hflush : flushMessages (dispatchOf j) heap messages (s.fep, s.acts) =
        .ok (heap', fep', acts')) :
      Move s { s with
        phase := .broadcast event (j + 1) (handled || decide (retval = 0))
        fep := fep'
        acts := acts'
        channel := Function.update s.channel j rest }
  /-- All clients have been asked; a key that is not marked as handled goes to the pty. -/
  | finish {s : Session e n} {event : ServerEvent} {handled : Bool}
      (hphase : s.phase = .broadcast event s.connected handled) :
      Move s { s with
        past := s.past ++ [(event, s.connected)]
        phase := .idle
        acts := s.acts ++ if handled then [] else event.key?.toList.map .writeKey }
  /-- `main_loop` reads a message of a client and dispatches it. -/
  | readMessage {s : Session e n} {j : Fin n} {message : FepControlMessage}
      {rest : List FepControlMessage} {fep' : Fep e.locale} {acts' : List (ServerAct (Fin n))}
      (hphase : s.phase = .idle) (hconnected : j.val < s.connected)
      (hchannel : s.channel j = message :: rest) (hread : Readable e.platform [message])
      (hhandle : dispatchOf j (s.fep, s.acts) message = .ok (fep', acts')) :
      Move s { s with
        fep := fep'
        acts := acts'
        channel := Function.update s.channel j rest }
  /-- A client runs `fep_client_dispatch` with the filter it has, whose requests the server can deal with;
  what it writes is still to be taken by the socket. -/
  | dispatch {s : Session e n} {i : Fin n} {filter : Option FepEventFilter}
      {request : FepControlMessage} {rest : List FepControlMessage} {retval : Int}
      {client' : FepClient} (hinbox : s.inbox i = request :: rest) (houtbox : s.outbox i = [])
      (hread : Readable e.platform [request])
      (hservable : ∀ message ∈ requestedMessages e.platform filter request, Servable e message)
      (hrun : dispatchRequest e.platform filter (s.client i) request = .ok (retval, client')) :
      Move s { s with
        inbox := Function.update s.inbox i rest
        client := Function.update s.client i client'
        done := Function.update s.done i (s.done i ++ [.answered filter request])
        outbox := Function.update s.outbox i
          (client'.written.drop (s.client i).written.length) }
  /-- The socket takes a message from a client. -/
  | deliver {s : Session e n} {i : Fin n} {message : FepControlMessage}
      {rest : List FepControlMessage} (houtbox : s.outbox i = message :: rest) :
      Move s { s with
        outbox := Function.update s.outbox i rest
        channel := Function.update s.channel i (s.channel i ++ [message]) }

/-- One step that somebody outside has taken. -/
inductive Arrival : Session e n → Session e n → Prop
  /-- A key is read from the tty, or a window change is noticed. -/
  | event {s : Session e n} (event : ServerEvent) {fep' : Fep e.locale} (hphase : s.phase = .idle)
      (hread : Readable e.platform [event.request e.platform]) (hshown : event.Shows s.fep fep') :
      Arrival s { s with phase := .broadcast event 0 false, fep := fep' }
  /-- The first bytes of a buffer of the child's output are shown. -/
  | childOutput {s : Session e n} {str : List UInt8} {strLen : Nat} {fep' : Fep e.locale}
      (hphase : s.phase = .idle) (hlen : strLen ≤ str.length)
      (hrun : outputStringFromPty e.platform s.fep str strLen = .ok fep') :
      Arrival s { s with fep := fep' }
  /-- `main_loop` accepts the next client, for whom the table has room. -/
  | accept {s : Session e n} (hphase : s.phase = .idle) (hroom : s.connected < n)
      (htable : s.connected < fepMaxClients) :
      Arrival s { s with connected := s.connected + 1 }
  /-- The program of a client makes a request. It may do so before the server has accepted it. -/
  | ask {s : Session e n} {i : Fin n} (r : ClientRequest) {client' : FepClient}
      (hservable : Servable e (r.message e.platform)) (houtbox : s.outbox i = [])
      (hrun : performRequest e.platform (s.client i) r = .ok client') :
      Arrival s { s with
        client := Function.update s.client i client'
        done := Function.update s.done i (s.done i ++ [.asked r])
        outbox := Function.update s.outbox i
          (client'.written.drop (s.client i).written.length) }

def Step (s s' : Session e n) : Prop := Arrival s s' ∨ Move s s'

def Reachable (s : Session e n) : Prop :=
  ∃ fep, ScreenStart fep ∧ Relation.ReflTransGen Step (start fep n) s

theorem Reachable.step {s s' : Session e n} (h : Reachable s) (hstep : Step s s') : Reachable s' := by
  obtain ⟨fep, hfep, hruns⟩ := h
  exact ⟨fep, hfep, hruns.tail hstep⟩

theorem Reachable.arrival {s s' : Session e n} (h : Reachable s) (harrival : Arrival s s') :
    Reachable s' := h.step (Or.inl harrival)

theorem Reachable.move {s s' : Session e n} (h : Reachable s) (hmove : Move s s') : Reachable s' :=
  h.step (Or.inr hmove)

/-- What holds at the start and is kept by every step holds in every reachable state. -/
theorem Reachable.induction {P : Session e n → Prop} (hstart : ∀ fep, ScreenStart fep → P (start fep n))
    (hstep : ∀ s s', Reachable s → P s → Step s s' → P s') {s : Session e n} (h : Reachable s) :
    P s := by
  obtain ⟨fep, hfep, hruns⟩ := h
  induction hruns with
  | refl => exact hstart fep hfep
  | tail hreach hnext ih => exact hstep _ _ ⟨fep, hfep, hreach⟩ ih hnext

/-! ## What the parties have seen -/

/-- The requests that client `i` has dispatched. -/
def seen (s : Session e n) (i : Fin n) : List FepControlMessage :=
  (s.done i).filterMap ClientAct.request?

/-- The number of events before client `i` has been connected. -/
def joined (s : Session e n) (i : Fin n) : Nat := (s.past.takeWhile (·.2 ≤ i.val)).length

/-- The events that client `i` was connected for. -/
def concerning (i : Fin n) (events : List (ServerEvent × Nat)) : List ServerEvent :=
  (events.filter (i.val < ·.2)).map (·.1)

def dispatchedFrom (i : Fin n) (acts : List (ServerAct (Fin n))) : List FepControlMessage :=
  acts.filterMap fun
    | .dispatch j message => if j = i then some message else none
    | .writeKey _ => none

/-- The keys that the server has written to the pty. -/
def keysWritten (acts : List (ServerAct (Fin n))) : List Key :=
  acts.filterMap fun
    | .dispatch _ _ => none
    | .writeKey key => some key

/-- What the program of client `i` has asked the server for. -/
def wanted (s : Session e n) (i : Fin n) : List FepControlMessage :=
  (s.done i).flatMap (ClientAct.messages e.platform)

end Session

/-- The event the server is busy with. -/
def SessionPhase.current : SessionPhase n → Option ServerEvent
  | .idle => none
  | .broadcast event _ _ | .waiting event _ _ _ _ => some event

/-- That event, if it has been sent to client `i` already. -/
def SessionPhase.told (i : Fin n) : SessionPhase n → Option ServerEvent
  | .idle => none
  | .broadcast event j _ => if i.val < j then some event else none
  | .waiting event j _ _ _ => if i.val ≤ j.val then some event else none

/-- The messages of client `i` that the server has queued. -/
def SessionPhase.Queue (i : Fin n) : SessionPhase n → List FepControlMessage → Prop
  | .idle, queue | .broadcast _ _ _, queue => queue = []
  | .waiting _ j _ heap messages, queue =>
    if i = j then NodeHeap.IsQueue heap messages queue else queue = []

/-- The responses that the server waits for from client `i`: one or none. -/
def SessionPhase.awaits (i : Fin n) : SessionPhase n → Nat
  | .idle | .broadcast _ _ _ => 0
  | .waiting _ j _ _ _ => if i = j then 1 else 0

/-- The loop is over the clients that are connected, and an event counts as handled from the first
response on. -/
def SessionPhase.Bounded (connected : Nat) : SessionPhase n → Prop
  | .idle => True
  | .broadcast _ j handled => j ≤ connected ∧ handled = decide (0 < j)
  | .waiting _ j handled _ _ => j.val < connected ∧ handled = decide (0 < j.val)

namespace Session

/-! ## The invariant -/

/-- The request to a client that is open: on its way, or answered by a message that is. -/
def underWay (s : Session e n) (i : Fin n) : Nat :=
  (s.inbox i).length + responsesIn (s.outbox i) + responsesIn (s.channel i)

/-- What holds between the server and client `i`. -/
structure ClientInv (s : Session e n) (i : Fin n) : Prop where
  idle : Idle (s.client i)
  /-- The client has dispatched, or will, what it has been told. -/
  told : s.seen i ++ s.inbox i =
    (concerning i s.past ++ (s.phase.told i).toList).map (ServerEvent.request e.platform)
  outstanding : s.underWay i = s.phase.awaits i
  /-- What is under way is about the event of the server. -/
  requests : ∀ request ∈ s.inbox i, ∃ event ∈ s.phase.current, request = event.request e.platform
  responses : ∀ message ∈ s.channel i ++ s.outbox i, message.command = .response →
    ∃ event ∈ s.phase.current, Answers (event.request e.platform) message
  conserved : ∃ queue, s.phase.Queue i queue ∧
    dispatchedFrom i s.acts ++ queue ++ requestsIn (s.channel i) ++ requestsIn (s.outbox i) =
      s.wanted i

/-- What holds in every state. -/
structure Inv (s : Session e n) : Prop where
  connected : s.connected ≤ n
  bounded : s.phase.Bounded s.connected
  /-- The number of clients never falls. -/
  counts : (s.past.map (·.2) ++ [s.connected]).Pairwise (· ≤ ·)
  /-- The server writes the keys itself that there was nobody to ask about. -/
  written : keysWritten s.acts = (s.past.filter (·.2 = 0)).filterMap (·.1.key?)
  clients : ∀ i, ClientInv s i

end Session

end LibFep
