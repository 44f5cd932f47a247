import LibFep.Protocol.Rest

/-!
# LibFep — a session over bytes

What a session does with whole messages is what the code does with the bytes of the sockets. The server
reads with `_fep_read_control_message`, in `main_loop` and in `_fep_transceive_control_message`, what the
clients have written, and the clients dispatch what the server has written. The server knows its clients by
the descriptors in `fep->clients`, and all of them share the screen.

* **`ServerSide`** — the server with its end of the sockets: the loop over the clients, and the calls
  that `main_loop` makes of itself.
* **`Session.step_coded`** — a step of a session is followed at both ends.
* **`Session.over_bytes`** — the server run on the bytes that the clients have sent does what the session
  has done, and the clients run on the bytes that it sends do so too.
-/

namespace LibFep

open Lib

variable {n : Nat} {e : Setting}

/-! ## The server -/

/-- What `main_loop` asks the clients about. -/
inductive EventCall where
  | key (key : Key)
  /-- The window has changed, and the kernel reports a size. -/
  | winch (reported : Winsize)

def EventCall.key? : EventCall → Option Key
  | .key k => some k
  | .winch _ => none

/-- Only the loop for a key looks whether there is a descriptor. -/
def EventCall.asks : EventCall → BitVec 32 → Bool
  | .key _, fd => !fd.msb
  | .winch _, _ => true

/-- The server and its end of each socket. -/
structure ServerSide (e : Setting) where
  /-- `fep->clients`. -/
  clients : ClientTable
  /-- The sockets by their descriptors, none of which is used again. -/
  link : BitVec 32 → ClientLink e
  fep : Fep e.locale
  acts : List (ServerAct (BitVec 32))
  /-- The bytes written to a socket. -/
  sent : BitVec 32 → List UInt8

namespace ServerSide

/-- Nobody has been accepted yet, whatever is to be read. -/
def start (fep : Fep e.locale) (link : BitVec 32 → ClientLink e) : ServerSide e :=
  ⟨.new, link, fep, [], fun _ => []⟩

/-- A socket, with the screen as it is now. -/
def linkAt (s : ServerSide e) (fd : BitVec 32) : ClientLink e := (s.link fd).withScreen s.fep

/-- After a call that has left a socket with `c`: what it has dispatched is new, and so is the screen. -/
def setLink (s : ServerSide e) (fd : BitVec 32) (c : ClientLink e) : ServerSide e :=
  { s with
    link := Function.update s.link fd c
    fep := c.dispatched.fep
    acts := s.acts ++
      (c.dispatched.calls.drop (s.link fd).dispatched.calls.length).map (.dispatch fd) }

/-- A request has been written to a socket. -/
def write (s : ServerSide e) (fd : BitVec 32) (request : FepControlMessage) : ServerSide e :=
  { s with
    sent := Function.update s.sent fd
      (s.sent fd ++ (writeControlMessage e.platform [] request).bytes) }

/-- The loop over the clients, in `main_loop` and in `handle_winch_signal`, with complete writes. The
result tells whether one of them has handled the event. -/
def sendToClients (request : FepControlMessage) :
    List (BitVec 32) → Bool → ServerSide e → Except Fault (Option (Bool × ServerSide e))
  | [], handled, s => .ok (some (handled, s))
  | fd :: fds, handled, s =>
    -- nothing is written to a socket that has been closed, and no response is read
    if (s.link fd).closed then sendToClients request fds handled s
    else do
      let some (retval, c) ← transceiveControlMessage (s.linkAt fd) request [] | return none
      sendToClients request fds (handled || decide (retval = 0)) ((s.write fd request).setLink fd c)

/-- The request for an event. A window change is shown at once, and the request has the size of before. -/
def beginEvent (s : ServerSide e) : EventCall → Except Fault (FepControlMessage × ServerSide e)
  | .key k => do
    let request ← buildKeyRequest e.platform k
    return (request, s)
  | .winch reported => do
    let fep ← handleWinchSignal s.fep reported
    let request ← buildResizeRequest e.platform s.fep.winsize
    return (request, { s with fep := fep })

end ServerSide

/-- What `main_loop` does of itself. -/
inductive ServerCall where
  | event (event : EventCall)
  /-- The first bytes of a buffer of the child's output are shown. -/
  | childOutput (str : List UInt8) (strLen : Nat)
  /-- `accept` returns `fd`. -/
  | accept (fd : BitVec 32)
  /-- The loop over the control sockets is at index `i`, and the socket there is readable. -/
  | read (i : Nat)

/-- One call, `none` if it does not return. -/
def serverCall (s : ServerSide e) : ServerCall → Except Fault (Option (ServerSide e))
  | .event event => do
    let (request, s) ← s.beginEvent event
    let fds ← clientsUsed s.clients
    let some (handled, s) ← s.sendToClients request (fds.filter event.asks) false | return none
    -- a key that nobody has handled is written to the pty
    return some { s with
      acts := s.acts ++ if handled then [] else event.key?.toList.map .writeKey }
  | .childOutput str strLen => do
    let fep ← outputStringFromPty e.platform s.fep str strLen
    return some { s with fep := fep }
  | .accept fd => do
    let clients ← acceptClient s.clients fd
    return some { s with clients := clients }
  | .read i => do
    if s.clients.nClients ≤ i then return some s
    let fd ← s.clients.readClient i
    if fd.msb then return some s
    let some c ← linkStep (s.linkAt fd) .read | return none
    let clients ← if c.closed then removeClient e.platform s.clients fd else .ok s.clients
    return some { s.setLink fd c with clients := clients }

def serverCalls : ServerSide e → List ServerCall → Except Fault (Option (ServerSide e))
  | s, [] => .ok (some s)
  | s, call :: calls => do
    let some s ← serverCall s call | return none
    serverCalls s calls

/-! ## The clients of the table -/

/-- The descriptors of sockets that are open at the same time. -/
structure Sockets (n : Nat) where
  fd : Fin n → BitVec 32
  valid : ∀ i, (fd i).msb = false
  injective : Function.Injective fd

/-- The table holds the clients that have been connected, in their order. -/
structure Sockets.Listed (sockets : Sockets n) (connected : Nat) (t : ClientTable) : Prop where
  count : t.nClients = connected
  room : connected ≤ fepMaxClients
  held : t.clients.take connected = ((List.finRange n).take connected).map sockets.fd

section

variable {sockets : Sockets n} {connected : Nat} {t : ClientTable}

theorem Sockets.listed_new (sockets : Sockets n) : sockets.Listed 0 .new :=
  ⟨rfl, Nat.zero_le _, rfl⟩

theorem take_succ_finRange (j : Fin n) :
    (List.finRange n).take (j + 1) = (List.finRange n).take j ++ [j] := by
  rw [List.take_add_one]
  simp

theorem Sockets.Listed.accept (h : sockets.Listed connected t) (hroom : connected < n)
    (htable : connected < fepMaxClients) :
    ∃ t', acceptClient t (sockets.fd ⟨connected, hroom⟩) = .ok t' ∧
      sockets.Listed (connected + 1) t' := by
  obtain ⟨t', haccept, hcount, hclients⟩ :=
    acceptClient_ok (sockets.valid ⟨connected, hroom⟩) (h.count.trans_lt htable)
  refine ⟨t', haccept, hcount.trans (congrArg (· + 1) h.count), htable, ?_⟩
  have hlt : connected < t.clients.length := t.length_clients ▸ htable
  rw [hclients, h.count, List.take_add_one, List.take_set_of_le (Nat.le_refl _), h.held,
    List.getElem?_set_self hlt, take_succ_finRange ⟨connected, hroom⟩, List.map_append]
  rfl

/-- The loops over the table are over the clients. -/
theorem Sockets.Listed.used (h : sockets.Listed connected t) :
    clientsUsed t = .ok (((List.finRange n).take connected).map sockets.fd) := by
  obtain ⟨fds, hfds⟩ := clientsUsed_ok (h.count.trans_le h.room)
  rw [hfds, eq_take_of_clientsUsed hfds, h.count, h.held]

theorem filter_asks (sockets : Sockets n) (event : EventCall) (js : List (Fin n)) :
    (js.map sockets.fd).filter event.asks = js.map sockets.fd := by
  apply List.filter_eq_self.mpr
  intro fd hmem
  obtain ⟨j, -, rfl⟩ := List.mem_map.mp hmem
  cases event with
  | key k => simp [EventCall.asks, sockets.valid j]
  | winch reported => rfl

theorem Sockets.Listed.readClient (h : sockets.Listed connected t) {j : Fin n}
    (hj : j.val < connected) : t.readClient j = .ok (sockets.fd j) := by
  have hget : t.clients[j.val]? = some (sockets.fd j) := by
    rw [← List.getElem?_take_of_lt hj, h.held, List.getElem?_map, List.getElem?_take_of_lt hj]
    simp
  rw [ClientTable.readClient, hget]

end

/-! ## One call -/

/-- The loop that waits for a response, with what it finds in the socket. -/
theorem waitForResponse_of_reads (fault : Option Fault) {queue : List FepControlMessage}
    (hqueue : ∀ message ∈ queue, message.command ≠ .response) {response : FepControlMessage}
    (hcommand : response.command = .response) (rest : List (Option FepControlMessage))
    {heap : NodeHeap FepControlMessage} {messages : Option Nat} {queued : List FepControlMessage}
    (hq : NodeHeap.IsQueue heap messages queued) :
    ∃ heap' messages', waitForResponse fault (queue.map some ++ some response :: rest) heap messages =
        .ok (some ⟨some response, rest, heap', messages'⟩) ∧
      NodeHeap.IsQueue heap' messages' (queued ++ queue) := by
  induction queue generalizing heap messages queued with
  | nil =>
    refine ⟨heap, messages, ?_, by rwa [List.append_nil]⟩
    show waitForResponse fault (some response :: rest) heap messages = _
    rw [waitForResponse, if_pos hcommand]
  | cons message queue ih =>
    have hne := hqueue message List.mem_cons_self
    obtain ⟨heap₁, messages₁, happend, hq₁⟩ := fepListAppend_isQueue hq message
    obtain ⟨heap', messages', hwait, hq'⟩ :=
      ih (fun m hm => hqueue m (List.mem_cons_of_mem _ hm)) hq₁
    refine ⟨heap', messages', ?_, ?_⟩
    · show waitForResponse fault (some message :: (queue.map some ++ some response :: rest)) _ _ = _
      rw [waitForResponse, if_neg hne, appendControlMessage, happend]
      exact hwait
    · rw [List.append_assoc] at hq'
      exact hq'

/-- A request and its response: what was read before the response is dispatched. -/
theorem transceiveControlMessage_of_reads {c : ClientLink e} {request response : FepControlMessage}
    {queue : List FepControlMessage} {rest : List (Option FepControlMessage)} {retval : Int}
    {d' : Dispatched e} (hreads : c.reads = queue.map some ++ some response :: rest)
    (hqueue : ∀ message ∈ queue, message.command ≠ .response)
    (hcommand : response.command = .response)
    (hcheck : checkResponse e.platform request response = .ok retval)
    (hfold : queue.foldlM (fun d message => (dispatchControlMessage d message).map (·.2))
      c.dispatched = .ok d') :
    ∃ c', transceiveControlMessage c request [] = .ok (some (retval, c')) ∧ c'.closed = c.closed ∧
      c'.reads = rest ∧ c'.dispatched = d' := by
  obtain ⟨heap, messages, hwait, hq⟩ :=
    waitForResponse_of_reads c.fault hqueue hcommand rest (NodeHeap.isQueue_nil c.heap)
  obtain ⟨heap', hflush⟩ := flushMessages_of_isQueue
    (fun d message => (dispatchControlMessage d message).map (·.2)) hq c.dispatched
  rw [List.nil_append, hfold] at hflush
  have hwritten : ¬ (writeControlMessage e.platform [] request).retval < 0 := by
    rw [writeControlMessage_complete]
    exact lt_irrefl 0
  refine ⟨{ c with reads := rest, heap := heap', dispatched := d' }, ?_, rfl, rfl, rfl⟩
  rw [transceiveControlMessage, if_neg hwritten, hreads, hwait]
  show (checkResponse e.platform request response >>= _) = _
  rw [hcheck, ok_bind, hflush]
  rfl

theorem linkStep_read_of_reads {c : ClientLink e} {message : FepControlMessage}
    {rest : List (Option FepControlMessage)} {d' : Dispatched e} (hclosed : c.closed = false)
    (hreads : c.reads = some message :: rest)
    (hrun : (dispatchControlMessage c.dispatched message).map (·.2) = .ok d') :
    linkStep c .read = .ok (some { c with reads := rest, dispatched := d' }) := by
  rw [linkStep, if_neg (by rw [hclosed]; decide), hreads]
  cases hdispatch : dispatchControlMessage c.dispatched message with
  | error fault => rw [hdispatch] at hrun; exact absurd hrun (by simp [Except.map])
  | ok r =>
    rw [hdispatch] at hrun
    obtain rfl := Except.ok.inj hrun
    show (dispatchControlMessage c.dispatched message >>= _) = _
    rw [hdispatch]
    rfl

/-- Nothing is done about a message that has no handler. -/
theorem runHandler_of_not_mem {message : FepControlMessage} (h : message.command ∉ handlers)
    (fep : Fep e.locale) : runHandler e fep message = .ok (fep, []) := by
  obtain ⟨command, args⟩ := message
  cases command with
  | setCursorText | setStatusText | sendText | sendData | forwardKeyEvent =>
    exact absurd (show _ ∈ handlers by simp [handlers]) h
  | keyEvent | resizeEvent | response => rfl

/-- A message that the session dispatches is dispatched by the server. -/
theorem dispatchControlMessage_of_dispatchOf {d : Dispatched e} {j : Fin n}
    {acts : List (ServerAct (Fin n))} {done' : Fep e.locale × List (ServerAct (Fin n))}
    {message : FepControlMessage} (h : Session.dispatchOf j (d.fep, acts) message = .ok done') :
    ∃ d', (dispatchControlMessage d message).map (·.2) = .ok d' ∧ d'.fep = done'.1 ∧
      d'.calls = d.calls ++ [message] := by
  obtain ⟨⟨fep', pieces⟩, hrun, h⟩ := bind_eq_ok.mp h
  obtain rfl := Except.ok.inj h
  unfold dispatchControlMessage
  by_cases hmem : message.command ∈ handlers
  · rw [if_pos hmem]
    refine ⟨⟨d.calls ++ [message], d.handled ++ [message], fep', d.pty ++ pieces⟩, ?_, rfl, rfl⟩
    show ((runHandler e d.fep message >>= _).map _ : Except Fault (Dispatched e)) = _
    rw [hrun]
    rfl
  · rw [if_neg hmem]
    refine ⟨{ d with calls := d.calls ++ [message] }, rfl, ?_, rfl⟩
    rw [runHandler_of_not_mem hmem] at hrun
    exact congrArg Prod.fst (Except.ok.inj hrun)

theorem foldlM_dispatchControlMessage_of_dispatchOf {d : Dispatched e} {j : Fin n}
    {acts : List (ServerAct (Fin n))} {done' : Fep e.locale × List (ServerAct (Fin n))}
    {messages : List FepControlMessage}
    (h : messages.foldlM (Session.dispatchOf j) (d.fep, acts) = .ok done') :
    ∃ d', messages.foldlM (fun d message => (dispatchControlMessage d message).map (·.2)) d = .ok d' ∧
      d'.fep = done'.1 ∧ d'.calls = d.calls ++ messages := by
  induction messages generalizing d acts with
  | nil =>
    obtain rfl := Except.ok.inj h
    exact ⟨d, rfl, rfl, (List.append_nil _).symm⟩
  | cons message messages ih =>
    rw [List.foldlM_cons] at h
    obtain ⟨⟨fep₁, acts₁⟩, hfirst, hrest⟩ := bind_eq_ok.mp h
    obtain ⟨d₁, hdispatch, hfep, hcalls⟩ := dispatchControlMessage_of_dispatchOf hfirst
    have hfep : d₁.fep = fep₁ := hfep
    rw [← hfep] at hrest
    obtain ⟨d', hfold, hfep', hcalls'⟩ := ih hrest
    refine ⟨d', ?_, hfep', ?_⟩
    · rw [List.foldlM_cons, hdispatch]
      exact hfold
    · rw [hcalls', hcalls, List.append_assoc, List.singleton_append]

namespace ServerSide

/-- What holds of the sockets of all clients after a call to client `j`. -/
theorem forall_link_setLink {s : ServerSide e} (sockets : Sockets n) {j : Fin n} {c : ClientLink e}
    {P : Fin n → ClientLink e → Prop} (hj : P j c)
    (hother : ∀ i, i ≠ j → P i (s.link (sockets.fd i))) (i : Fin n) :
    P i ((s.setLink (sockets.fd j) c).link (sockets.fd i)) := by
  show P i (Function.update s.link (sockets.fd j) c (sockets.fd i))
  by_cases hij : i = j
  · subst hij
    rw [Function.update_self]
    exact hj
  · rw [Function.update_of_ne (sockets.injective.ne hij)]
    exact hother i hij

theorem sendToClients_concat {request : FepControlMessage} {fds : List (BitVec 32)}
    {handled handled' : Bool} {s s' : ServerSide e}
    (h : s.sendToClients request fds handled = .ok (some (handled', s'))) {fd : BitVec 32}
    {retval : Int} {c : ClientLink e} (hclosed : (s'.link fd).closed = false)
    (hlast : transceiveControlMessage (s'.linkAt fd) request [] = .ok (some (retval, c))) :
    s.sendToClients request (fds ++ [fd]) handled =
      .ok (some (handled' || decide (retval = 0), (s'.write fd request).setLink fd c)) := by
  induction fds generalizing handled s with
  | nil =>
    obtain ⟨rfl, rfl⟩ := Prod.mk.inj (Option.some.inj (Except.ok.inj h))
    rw [List.nil_append, sendToClients, if_neg (by rw [hclosed]; decide), hlast]
    rfl
  | cons fd₁ fds ih =>
    rw [List.cons_append, sendToClients]
    rw [sendToClients] at h
    by_cases hclosed₁ : (s.link fd₁).closed = true
    · rw [if_pos hclosed₁] at h ⊢
      exact ih h
    · rw [if_neg hclosed₁] at h ⊢
      obtain ⟨o, hfirst, h⟩ := bind_eq_ok.mp h
      cases o with
      | none => exact absurd h (by simp [pure, Except.pure])
      | some result =>
        rw [hfirst]
        exact ih h

end ServerSide

theorem serverCalls_concat {s s' : ServerSide e} {calls : List ServerCall}
    (h : serverCalls s calls = .ok (some s')) (call : ServerCall) :
    serverCalls s (calls ++ [call]) = serverCall s' call := by
  induction calls generalizing s with
  | nil =>
    obtain rfl := Option.some.inj (Except.ok.inj h)
    show (serverCall s call >>= _) = _
    cases serverCall s call with
    | error fault => rfl
    | ok o => cases o <;> rfl
  | cons first calls ih =>
    rw [serverCalls] at h
    obtain ⟨o, hfirst, h⟩ := bind_eq_ok.mp h
    cases o with
    | none => exact absurd h (by simp [pure, Except.pure])
    | some s₁ =>
      show (serverCall s first >>= _) = _
      rw [hfirst]
      exact ih h

/-! ## The server follows -/

/-- The same act, with the clients known otherwise. -/
def ServerAct.map {α β : Type} (f : α → β) : ServerAct α → ServerAct β
  | .dispatch i message => .dispatch (f i) message
  | .writeKey key => .writeKey key

theorem map_dispatches (sockets : Sockets n) (j : Fin n) (messages : List FepControlMessage) :
    (messages.map (ServerAct.dispatch j)).map (ServerAct.map sockets.fd) =
      messages.map (.dispatch (sockets.fd j)) :=
  List.map_map

/-- An event that has been shown is begun by a call, in which nothing else is done yet. -/
theorem exists_beginEvent {fep fep' : Fep e.locale} {event : ServerEvent} (h : event.Shows fep fep') :
    ∃ call : EventCall, call.key? = event.key? ∧ ∀ server : ServerSide e, server.fep = fep →
      server.beginEvent call = .ok (event.request e.platform, { server with fep := fep' }) := by
  cases event with
  | key k =>
    refine ⟨.key k, rfl, fun server hfep => ?_⟩
    obtain rfl : fep' = fep := h
    subst hfep
    rfl
  | resize size =>
    obtain ⟨rfl, reported, hwinch⟩ := h
    refine ⟨.winch reported, rfl, fun server hfep => ?_⟩
    subst hfep
    rw [ServerSide.beginEvent, hwinch]
    rfl

namespace SessionPhase

/-- The event of the server, and the number of clients that have answered it. -/
def asked : SessionPhase n → Option (ServerEvent × Nat)
  | .idle => none
  | .broadcast event j _ => some (event, j)
  | .waiting event j _ _ _ => some (event, j)

def handled : SessionPhase n → Bool
  | .idle => false
  | .broadcast _ _ handled | .waiting _ _ handled _ _ => handled

/-- The event, if client `i` has answered it. -/
def answered (i : Fin n) (phase : SessionPhase n) : Option ServerEvent :=
  phase.asked.bind fun (event, j) => if i.val < j then some event else none

end SessionPhase

namespace Session

/-- The server has begun a call for an event, and the clients before `j` have answered. -/
structure InLoop (sockets : Sockets n) (call : EventCall) (event : ServerEvent) (j : Nat)
    (handled : Bool) (before after : ServerSide e) : Prop where
  key : call.key? = event.key?
  runs : ∃ begun : ServerSide e, before.beginEvent call = .ok (event.request e.platform, begun) ∧
    begun.clients = before.clients ∧
    begun.sendToClients (event.request e.platform)
      (((List.finRange n).take j).map sockets.fd) false = .ok (some (handled, after))

/-- The calls so far have left the server as `before`, and in the call for an event, `next`, it is `after`.
It has queued `queued`, and `later` is still to be read. -/
structure ServerAt (sockets : Sockets n) (s : Session e n) (next : Option EventCall)
    (queued : Fin n → List FepControlMessage) (later : Fin n → List (Option FepControlMessage))
    (before after : ServerSide e) : Prop where
  called : sockets.Listed s.connected before.clients
  listed : sockets.Listed s.connected after.clients
  fep : after.fep = s.fep
  idle : s.phase.asked = none → after = before
  loop : ∀ event j, s.phase.asked = some (event, j) →
    ∃ call ∈ next, InLoop sockets call event j s.phase.handled before after
  acts : after.acts = s.acts.map (ServerAct.map sockets.fd)
  closed : ∀ i, (after.link (sockets.fd i)).closed = false
  reads : ∀ i, (after.link (sockets.fd i)).reads = (queued i).map some ++ later i
  sent : ∀ i, after.sent (sockets.fd i) = wire e.platform
    ((concerning i s.past ++ (s.phase.answered i).toList).map (ServerEvent.request e.platform))

/-- What there is to be read from each socket: what has been taken, then anything. -/
def Supplies (sockets : Sockets n) (links : BitVec 32 → ClientLink e)
    (taken : Fin n → List FepControlMessage) (later : Fin n → List (Option FepControlMessage)) :
    Prop :=
  ∀ i, (links (sockets.fd i)).closed = false ∧
    (links (sockets.fd i)).reads = (taken i).map some ++ later i

/-- The server follows the session: from the first screen, it has taken `taken` by the calls. -/
structure ServerFollows (sockets : Sockets n) (first : Fep e.locale) (s : Session e n)
    (queued taken : Fin n → List FepControlMessage) (calls : List ServerCall)
    (next : Option EventCall) : Prop where
  queue : ∀ i, s.phase.Queue i (queued i)
  requests : ∀ i, ∀ message ∈ queued i, message.command ≠ .response
  written : ∀ i, (s.client i).written = taken i ++ s.channel i ++ s.outbox i
  readable : ∀ i, Readable e.platform (taken i)
  runs : ∀ links later, Supplies sockets links taken later →
    ∃ before after, serverCalls (.start first links) calls = .ok (some before) ∧
      ServerAt sockets s next queued later before after

section

variable {sockets : Sockets n} {first : Fep e.locale} {s : Session e n}
  {queued taken : Fin n → List FepControlMessage} {calls : List ServerCall} {next : Option EventCall}

theorem serverFollows_start (sockets : Sockets n) (first : Fep e.locale) :
    ServerFollows sockets first (start first n) (fun _ => []) (fun _ => []) [] none where
  queue _ := rfl
  requests _ _ h := absurd h List.not_mem_nil
  written _ := rfl
  readable _ := List.forall_mem_nil _
  runs links later hlinks :=
    ⟨.start first links, .start first links, rfl,
      { called := sockets.listed_new
        listed := sockets.listed_new
        fep := rfl
        idle := fun _ => rfl
        loop := fun _ _ h => absurd h (by simp [start, SessionPhase.asked])
        acts := rfl
        closed := fun i => (hlinks i).1
        reads := fun i => (hlinks i).2
        sent := fun _ => rfl }⟩

/-- The server is not concerned. -/
theorem ServerFollows.frame (h : ServerFollows sockets first s queued taken calls next)
    {s' : Session e n} (hphase : s'.phase = s.phase) (hpast : s'.past = s.past)
    (hfep : s'.fep = s.fep) (hacts : s'.acts = s.acts) (hconnected : s'.connected = s.connected)
    (hwritten : ∀ i, (s'.client i).written = taken i ++ s'.channel i ++ s'.outbox i) :
    ServerFollows sockets first s' queued taken calls next where
  queue i := hphase ▸ h.queue i
  requests := h.requests
  written := hwritten
  readable := h.readable
  runs links later hlinks := by
    obtain ⟨before, after, hcalls, hat⟩ := h.runs links later hlinks
    exact ⟨before, after, hcalls,
      { called := hconnected ▸ hat.called
        listed := hconnected ▸ hat.listed
        fep := hat.fep.trans hfep.symm
        idle := hphase ▸ hat.idle
        loop := hphase ▸ hat.loop
        acts := hat.acts.trans (congrArg _ hacts.symm)
        closed := hat.closed
        reads := hat.reads
        sent := by rw [hphase, hpast]; exact hat.sent }⟩

/-- A message has been read from the socket of client `j`. -/
theorem ServerFollows.take (h : ServerFollows sockets first s queued taken calls next) {j : Fin n}
    {message : FepControlMessage} {links : BitVec 32 → ClientLink e}
    {later : Fin n → List (Option FepControlMessage)}
    (hlinks : Supplies sockets links (Function.update taken j (taken j ++ [message])) later) :
    ∃ before after, serverCalls (.start first links) calls = .ok (some before) ∧
      ServerAt sockets s next queued (Function.update later j (some message :: later j)) before
        after := by
  apply h.runs links
  intro i
  refine ⟨(hlinks i).1, (hlinks i).2.trans ?_⟩
  by_cases hij : i = j
  · subst hij
    simp
  · rw [Function.update_of_ne hij, Function.update_of_ne hij]

theorem ServerFollows.written_take (h : ServerFollows sockets first s queued taken calls next)
    {j : Fin n} {message : FepControlMessage} {rest : List FepControlMessage}
    (hchannel : s.channel j = message :: rest) (i : Fin n) :
    (s.client i).written = Function.update taken j (taken j ++ [message]) i ++
      Function.update s.channel j rest i ++ s.outbox i := by
  refine (h.written i).trans ?_
  by_cases hij : i = j
  · subst hij
    simp [hchannel]
  · rw [Function.update_of_ne hij, Function.update_of_ne hij]

theorem ServerFollows.readable_take (h : ServerFollows sockets first s queued taken calls next)
    {j : Fin n} {message : FepControlMessage} (hread : Readable e.platform [message]) :
    ∀ i, Readable e.platform (Function.update taken j (taken j ++ [message]) i) :=
  forall_mem_update (List.forall_mem_append.mpr ⟨h.readable j, hread⟩) h.readable

/-- An idle server is in no loop. -/
theorem ServerAt.eq_of_idle {later : Fin n → List (Option FepControlMessage)}
    {before after : ServerSide e} (h : ServerAt sockets s next queued later before after)
    (hphase : s.phase = .idle) : after = before :=
  h.idle (by rw [hphase]; rfl)

theorem serverFollows_event (h : ServerFollows sockets first s queued taken calls next)
    {event : ServerEvent} {fep' : Fep e.locale} (hphase : s.phase = .idle)
    (hshown : event.Shows s.fep fep') :
    ∃ call, ServerFollows sockets first { s with phase := .broadcast event 0 false, fep := fep' }
      queued taken calls (some call) := by
  obtain ⟨call, hkey, hbegin⟩ := exists_beginEvent (e := e) hshown
  refine ⟨call, ⟨fun i => ?_, h.requests, h.written, h.readable, fun links later hlinks => ?_⟩⟩
  · have hqueue := h.queue i
    rw [hphase] at hqueue
    exact hqueue
  obtain ⟨before, after, hcalls, hat⟩ := h.runs links later hlinks
  obtain rfl := hat.eq_of_idle hphase
  have hsent := hat.sent
  rw [hphase] at hsent
  refine ⟨after, { after with fep := fep' }, hcalls,
    { called := hat.called
      listed := hat.listed
      fep := rfl
      idle := fun h => absurd h (by simp [SessionPhase.asked])
      loop := fun event' j hasked => ?_
      acts := hat.acts
      closed := hat.closed
      reads := hat.reads
      sent := hsent }⟩
  obtain ⟨rfl, rfl⟩ := Prod.mk.inj (Option.some.inj hasked)
  exact ⟨call, rfl, hkey, _, hbegin after hat.fep, rfl, rfl⟩

theorem serverFollows_childOutput (h : ServerFollows sockets first s queued taken calls next)
    {str : List UInt8} {strLen : Nat} {fep' : Fep e.locale} (hphase : s.phase = .idle)
    (hrun : outputStringFromPty e.platform s.fep str strLen = .ok fep') :
    ServerFollows sockets first { s with fep := fep' } queued taken
      (calls ++ [.childOutput str strLen]) next where
  queue := h.queue
  requests := h.requests
  written := h.written
  readable := h.readable
  runs links later hlinks := by
    obtain ⟨before, after, hcalls, hat⟩ := h.runs links later hlinks
    obtain rfl := hat.eq_of_idle hphase
    have hcall : serverCall after (.childOutput str strLen) =
        .ok (some { after with fep := fep' }) := by
      rw [serverCall, hat.fep, hrun]
      rfl
    exact ⟨{ after with fep := fep' }, { after with fep := fep' },
      (serverCalls_concat hcalls _).trans hcall,
      { called := hat.called
        listed := hat.listed
        fep := rfl
        idle := fun _ => rfl
        loop := fun event j hasked => absurd hasked (by simp [hphase, SessionPhase.asked])
        acts := hat.acts
        closed := hat.closed
        reads := hat.reads
        sent := hat.sent }⟩

theorem serverFollows_accept (h : ServerFollows sockets first s queued taken calls next)
    (hphase : s.phase = .idle) (hroom : s.connected < n) (htable : s.connected < fepMaxClients) :
    ServerFollows sockets first { s with connected := s.connected + 1 } queued taken
      (calls ++ [.accept (sockets.fd ⟨s.connected, hroom⟩)]) next where
  queue := h.queue
  requests := h.requests
  written := h.written
  readable := h.readable
  runs links later hlinks := by
    obtain ⟨before, after, hcalls, hat⟩ := h.runs links later hlinks
    obtain rfl := hat.eq_of_idle hphase
    obtain ⟨clients, haccept, hlisted⟩ := hat.listed.accept hroom htable
    have hcall : serverCall after (.accept (sockets.fd ⟨s.connected, hroom⟩)) =
        .ok (some { after with clients := clients }) := by
      rw [serverCall, haccept]
      rfl
    exact ⟨{ after with clients := clients }, { after with clients := clients },
      (serverCalls_concat hcalls _).trans hcall,
      { called := hlisted
        listed := hlisted
        fep := hat.fep
        idle := fun _ => rfl
        loop := fun event j hasked => absurd hasked (by simp [hphase, SessionPhase.asked])
        acts := hat.acts
        closed := hat.closed
        reads := hat.reads
        sent := hat.sent }⟩

theorem serverFollows_sendRequest (h : ServerFollows sockets first s queued taken calls next)
    {event : ServerEvent} {j : Fin n} {handled : Bool}
    (hphase : s.phase = .broadcast event j handled) (inbox : Fin n → List FepControlMessage) :
    ServerFollows sockets first
      { s with phase := .waiting event j handled .empty none, inbox := inbox }
      queued taken calls next where
  queue i := by
    have hnil := h.queue i
    rw [hphase] at hnil
    have hnil : queued i = [] := hnil
    rw [hnil, SessionPhase.Queue]
    split
    · exact NodeHeap.isQueue_nil _
    · rfl
  requests := h.requests
  written := h.written
  readable := h.readable
  runs links later hlinks := by
    obtain ⟨before, after, hcalls, hat⟩ := h.runs links later hlinks
    obtain ⟨hcalled, hlisted, hfep, hidle, hloop, hacts, hclosed, hreads, hsent⟩ := hat
    rw [hphase] at hidle hloop hsent
    exact ⟨before, after, hcalls, hcalled, hlisted, hfep, hidle, hloop, hacts, hclosed, hreads, hsent⟩

theorem serverFollows_queueMessage (h : ServerFollows sockets first s queued taken calls next)
    {event : ServerEvent} {j : Fin n} {handled : Bool} {heap heap' : NodeHeap FepControlMessage}
    {messages messages' : Option Nat} {message : FepControlMessage} {rest : List FepControlMessage}
    (hphase : s.phase = .waiting event j handled heap messages)
    (hchannel : s.channel j = message :: rest) (hread : Readable e.platform [message])
    (hcommand : message.command ≠ .response)
    (happend : appendControlMessage heap messages message = .ok (heap', messages')) :
    ServerFollows sockets first { s with
        phase := .waiting event j handled heap' messages'
        channel := Function.update s.channel j rest }
      (Function.update queued j (queued j ++ [message]))
      (Function.update taken j (taken j ++ [message])) calls next where
  queue i := by
    have hq := h.queue i
    rw [hphase] at hq
    rw [SessionPhase.Queue] at hq ⊢
    by_cases hij : i = j
    · subst hij
      rw [if_pos rfl] at hq
      rw [if_pos rfl, Function.update_self]
      obtain ⟨heap₁, messages₁, happend₁, hq₁⟩ := fepListAppend_isQueue hq message
      obtain ⟨rfl, rfl⟩ := Prod.mk.inj (Except.ok.inj (happend₁.symm.trans happend))
      exact hq₁
    · rw [if_neg hij] at hq
      rw [if_neg hij, Function.update_of_ne hij]
      exact hq
  requests :=
    forall_mem_update
      (List.forall_mem_append.mpr ⟨h.requests j, List.forall_mem_singleton.mpr hcommand⟩) h.requests
  written := h.written_take hchannel
  readable := h.readable_take hread
  runs links later hlinks := by
    obtain ⟨before, after, hcalls, hat⟩ := h.take hlinks
    obtain ⟨hcalled, hlisted, hfep, hidle, hloop, hacts, hclosed, hreads, hsent⟩ := hat
    rw [hphase] at hidle hloop hsent
    refine ⟨before, after, hcalls, hcalled, hlisted, hfep, hidle, hloop, hacts, hclosed,
      fun i => ?_, hsent⟩
    -- what the server has queued is what it will read again
    rw [hreads i]
    by_cases hij : i = j
    · subst hij
      simp
    · rw [Function.update_of_ne hij, Function.update_of_ne hij]

/-- The call of `_fep_transceive_control_message` that ends with the response: the server does what the
session does when it flushes its queue. -/
theorem exists_transceive {later : Fin n → List (Option FepControlMessage)}
    {before after : ServerSide e} (hat : ServerAt sockets s next queued later before after)
    (hrequests : ∀ i, ∀ message ∈ queued i, message.command ≠ .response)
    {request message : FepControlMessage} {j : Fin n} {rest : List (Option FepControlMessage)}
    {retval : Int} {fep' : Fep e.locale} {acts' : List (ServerAct (Fin n))}
    (hlater : later j = some message :: rest) (hcommand : message.command = .response)
    (hcheck : checkResponse e.platform request message = .ok retval)
    (hfold : (queued j).foldlM (dispatchOf j) (s.fep, s.acts) = .ok (fep', acts')) :
    ∃ c, transceiveControlMessage (after.linkAt (sockets.fd j)) request [] = .ok (some (retval, c)) ∧
      c.closed = false ∧ c.reads = rest ∧ c.dispatched.fep = fep' ∧
      c.dispatched.calls = (after.link (sockets.fd j)).dispatched.calls ++ queued j := by
  have hread : (after.linkAt (sockets.fd j)).reads = (queued j).map some ++ some message :: rest :=
    (hat.reads j).trans (by rw [hlater])
  have hscreen : (after.linkAt (sockets.fd j)).dispatched.fep = s.fep := hat.fep
  rw [← hscreen] at hfold
  obtain ⟨d', hdispatch, hfep', hcalls'⟩ := foldlM_dispatchControlMessage_of_dispatchOf hfold
  obtain ⟨c, htransceive, hclosed, hreads, hdispatched⟩ :=
    transceiveControlMessage_of_reads hread (hrequests j) hcommand hcheck hdispatch
  refine ⟨c, htransceive, hclosed.trans (hat.closed j), hreads, ?_, ?_⟩
  · rw [hdispatched, hfep']
  · rw [hdispatched, hcalls']
    rfl

theorem serverFollows_takeResponse (h : ServerFollows sockets first s queued taken calls next)
    {event : ServerEvent} {j : Fin n} {handled : Bool} {heap heap' : NodeHeap FepControlMessage}
    {messages : Option Nat} {message : FepControlMessage} {rest : List FepControlMessage}
    {retval : Int} {fep' : Fep e.locale} {acts' : List (ServerAct (Fin n))}
    (hphase : s.phase = .waiting event j handled heap messages)
    (hchannel : s.channel j = message :: rest) (hread : Readable e.platform [message])
    (hcommand : message.command = .response)
    (hcheck : checkResponse e.platform (event.request e.platform) message = .ok retval)
    (hflush : flushMessages (dispatchOf j) heap messages (s.fep, s.acts) =
      .ok (heap', fep', acts')) :
    ServerFollows sockets first { s with
        phase := .broadcast event (j + 1) (handled || decide (retval = 0))
        fep := fep'
        acts := acts'
        channel := Function.update s.channel j rest }
      (Function.update queued j []) (Function.update taken j (taken j ++ [message])) calls
      next where
  queue i := by
    show Function.update queued j [] i = []
    by_cases hij : i = j
    · subst hij
      rw [Function.update_self]
    · have hq := h.queue i
      rw [hphase, SessionPhase.Queue, if_neg hij] at hq
      rw [Function.update_of_ne hij]
      exact hq
  requests := forall_mem_update (List.forall_mem_nil _) h.requests
  written := h.written_take hchannel
  readable := h.readable_take hread
  runs links later hlinks := by
    obtain ⟨before, after, hcalls, hat⟩ := h.take hlinks
    have hq := h.queue j
    rw [hphase, SessionPhase.Queue, if_pos rfl] at hq
    have hfold := flushMessages_ok hq hflush
    have hnew : acts' = s.acts ++ (queued j).map (.dispatch j) := foldlM_dispatchOf_ok hfold
    -- the wait for client `j` ends with the response
    obtain ⟨c, htransceive, hclosed', hreads', hfep', hdispatched⟩ :=
      exists_transceive hat h.requests (Function.update_self ..) hcommand hcheck hfold
    obtain ⟨hcalled, hlisted, hfep, hidle, hloop, hacts, hclosed, hreads, hsent⟩ := hat
    rw [hphase] at hloop hsent
    obtain ⟨call, hcall, hkey, begun, hbegin, hclients, hruns⟩ := hloop event j rfl
    refine ⟨before, (after.write (sockets.fd j) (event.request e.platform)).setLink (sockets.fd j) c,
      hcalls,
      { called := hcalled
        listed := hlisted
        fep := hfep'
        idle := fun h => absurd h (by simp [SessionPhase.asked])
        loop := fun event' k hasked => ?_
        acts := ?_
        closed := ?_
        reads := ?_
        sent := fun i => ?_ }⟩
    · obtain ⟨rfl, rfl⟩ := Prod.mk.inj (Option.some.inj hasked)
      refine ⟨call, hcall, hkey, begun, hbegin, hclients, ?_⟩
      rw [take_succ_finRange, List.map_append]
      exact ServerSide.sendToClients_concat hruns (hclosed j) htransceive
    · show after.acts ++ (c.dispatched.calls.drop
        (after.link (sockets.fd j)).dispatched.calls.length).map _ = acts'.map _
      rw [hdispatched, List.drop_left, hacts, hnew, List.map_append, map_dispatches]
    · exact ServerSide.forall_link_setLink (P := fun _ link => link.closed = false) sockets hclosed'
        fun i _ => hclosed i
    · apply ServerSide.forall_link_setLink
        (P := fun i link => link.reads = (Function.update queued j [] i).map some ++ later i) sockets
      · rw [Function.update_self]
        exact hreads'
      · intro i hij
        rw [Function.update_of_ne hij, ← Function.update_of_ne hij (some message :: later j) later]
        exact hreads i
    · show Function.update after.sent (sockets.fd j) (after.sent (sockets.fd j) ++ _)
        (sockets.fd i) = _
      by_cases hij : i = j
      · subst hij
        rw [Function.update_self, hsent i]
        simp [SessionPhase.answered, SessionPhase.asked, wire]
      · have hne : i.val ≠ j.val := fun heq => hij (Fin.ext heq)
        rw [Function.update_of_ne (sockets.injective.ne hij), hsent i]
        simp only [SessionPhase.answered, SessionPhase.asked, Option.bind_some,
          show i.val < j.val ↔ i.val < j.val + 1 by omega]

theorem serverFollows_finish (h : ServerFollows sockets first s queued taken calls next)
    {event : ServerEvent} {handled : Bool} (hphase : s.phase = .broadcast event s.connected handled) :
    ServerFollows sockets first { s with
        past := s.past ++ [(event, s.connected)]
        phase := .idle
        acts := s.acts ++ if handled then [] else event.key?.toList.map .writeKey }
      queued taken (calls ++ next.toList.map .event) none where
  queue i := by
    have hq := h.queue i
    rw [hphase] at hq
    exact hq
  requests := h.requests
  written := h.written
  readable := h.readable
  runs links later hlinks := by
    obtain ⟨before, after, hcalls, hat⟩ := h.runs links later hlinks
    obtain ⟨hcalled, hlisted, hfep, -, hloop, hacts, hclosed, hreads, hsent⟩ := hat
    rw [hphase] at hloop hsent
    obtain ⟨call, rfl, hkey, begun, hbegin, hclients, hruns⟩ := hloop event s.connected rfl
    obtain ⟨done, hdone⟩ : ∃ done : ServerSide e, done = { after with
      acts := after.acts ++ if handled then [] else event.key?.toList.map .writeKey } := ⟨_, rfl⟩
    have hused : clientsUsed begun.clients = _ := hclients ▸ hcalled.used
    have hcall : serverCall before (.event call) = .ok (some done) := by
      rw [serverCall, hbegin, ok_bind]
      show (clientsUsed begun.clients >>= _) = _
      rw [hused, ok_bind, filter_asks, hruns, hdone, hkey]
      rfl
    refine ⟨done, done, (serverCalls_concat hcalls _).trans hcall, ?_⟩
    rw [hdone]
    exact
      { called := hlisted
        listed := hlisted
        fep := hfep
        idle := fun _ => rfl
        loop := fun _ _ hasked => absurd hasked (by simp [SessionPhase.asked])
        acts := by
          rw [hacts, List.map_append]
          cases handled with
          | true => rfl
          | false => cases event.key? <;> rfl
        closed := hclosed
        reads := hreads
        sent := fun i => (hsent i).trans (by
          -- the clients that have answered are those the event concerns
          rw [concerning_append, concerning_singleton]
          by_cases hlt : i.val < s.connected <;>
            simp [SessionPhase.answered, SessionPhase.asked, hlt]) }

theorem serverFollows_readMessage (h : ServerFollows sockets first s queued taken calls next)
    {j : Fin n} {message : FepControlMessage} {rest : List FepControlMessage} {fep' : Fep e.locale}
    {acts' : List (ServerAct (Fin n))} (hphase : s.phase = .idle) (hconnected : j.val < s.connected)
    (hchannel : s.channel j = message :: rest) (hread : Readable e.platform [message])
    (hhandle : dispatchOf j (s.fep, s.acts) message = .ok (fep', acts')) :
    ServerFollows sockets first { s with
        fep := fep'
        acts := acts'
        channel := Function.update s.channel j rest }
      queued (Function.update taken j (taken j ++ [message])) (calls ++ [.read j]) next where
  queue := h.queue
  requests := h.requests
  written := h.written_take hchannel
  readable := h.readable_take hread
  runs links later hlinks := by
    obtain ⟨before, after, hcalls, hat⟩ := h.take hlinks
    obtain rfl := hat.eq_of_idle hphase
    obtain ⟨hcalled, hlisted, hfep, -, -, hacts, hclosed, hreads, hsent⟩ := hat
    have hqueue (i : Fin n) : queued i = [] := by
      have hq := h.queue i
      rw [hphase] at hq
      exact hq
    have hnext : (after.linkAt (sockets.fd j)).reads = some message :: later j := by
      refine (hreads j).trans ?_
      rw [hqueue j, Function.update_self]
      rfl
    have hscreen : (after.linkAt (sockets.fd j)).dispatched.fep = s.fep := hfep
    have hnew : acts' = s.acts ++ [.dispatch j message] := dispatchOf_ok hhandle
    -- the message is read and dispatched at once
    rw [← hscreen] at hhandle
    obtain ⟨d', hdispatch, hfep', hcalls'⟩ := dispatchControlMessage_of_dispatchOf hhandle
    obtain ⟨c, hc⟩ : ∃ c : ClientLink e, c = { after.linkAt (sockets.fd j) with
      reads := later j, dispatched := d' } := ⟨_, rfl⟩
    have hstep : linkStep (after.linkAt (sockets.fd j)) .read = .ok (some c) := by
      rw [hc]
      exact linkStep_read_of_reads (hclosed j) hnext hdispatch
    have hclosed' : c.closed = false := by
      rw [hc]
      exact hclosed j
    have hcall : serverCall after (.read j) = .ok (some (after.setLink (sockets.fd j) c)) := by
      rw [serverCall, if_neg (Nat.not_le_of_lt (hlisted.count ▸ hconnected)),
        hlisted.readClient hconnected, ok_bind, if_neg (by rw [sockets.valid j]; decide), hstep,
        ok_bind]
      dsimp only
      rw [if_neg (by rw [hclosed']; decide)]
      rfl
    refine ⟨after.setLink (sockets.fd j) c, after.setLink (sockets.fd j) c,
      (serverCalls_concat hcalls _).trans hcall,
      { called := hlisted
        listed := hlisted
        fep := by rw [hc]; exact hfep'
        idle := fun _ => rfl
        loop := fun event k hasked => absurd hasked (by simp [hphase, SessionPhase.asked])
        acts := ?_
        closed := ?_
        reads := ?_
        sent := hsent }⟩
    · show after.acts ++ (c.dispatched.calls.drop
        (after.link (sockets.fd j)).dispatched.calls.length).map _ = acts'.map _
      have hcalls'' : c.dispatched.calls =
          (after.link (sockets.fd j)).dispatched.calls ++ [message] := by
        rw [hc]
        exact hcalls'
      rw [hcalls'', List.drop_left, hacts, hnew, List.map_append]
      rfl
    · exact ServerSide.forall_link_setLink (P := fun _ link => link.closed = false) sockets hclosed'
        fun i _ => hclosed i
    · apply ServerSide.forall_link_setLink
        (P := fun i link => link.reads = (queued i).map some ++ later i) sockets
      · rw [hqueue j, hc]
        rfl
      · intro i hij
        rw [← Function.update_of_ne hij (some message :: later j) later]
        exact hreads i

end

end Session

/-! ## The clients follow -/

variable {p : Platform}

theorem clientRun_request {client client' : FepClient} {r : ClientRequest}
    (h : performRequest p client r = .ok client') (fd : Fd) (ops : List ClientOp) :
    clientRun p client fd (.request r :: ops) = clientRun p client' fd ops := by
  rw [clientRun, h]

theorem clientRun_dispatch {client client' : FepClient} {filter : Option FepEventFilter}
    {fd fd' : Fd} {retval : Int}
    (h : fepClientDispatch p filter client fd = .ret (.ok (retval, client')) fd')
    (ops : List ClientOp) :
    clientRun p client fd (.dispatch filter :: ops) = clientRun p client' fd' ops := by
  rw [clientRun, h]
  rfl

theorem clientRun_concat {client client' : FepClient} {fd fd' : Fd} {ops : List ClientOp}
    (h : clientRun p client fd ops = .ret (.ok client') fd') (op : ClientOp) :
    clientRun p client fd (ops ++ [op]) = clientRun p client' fd' [op] := by
  induction ops generalizing client fd with
  | nil =>
    rw [clientRun, Outcome.ret.injEq] at h
    obtain ⟨hclient, rfl⟩ := h
    obtain rfl := Except.ok.inj hclient
    rfl
  | cons first ops ih =>
    cases first with
    | request r =>
      cases hrun : performRequest p client r with
      | ok client₁ =>
        rw [clientRun_request hrun] at h
        rw [List.cons_append, clientRun_request hrun]
        exact ih h
      | error fault =>
        rw [clientRun, hrun] at h
        exact absurd h (by simp)
    | dispatch filter =>
      rw [clientRun] at h
      obtain ⟨result, fd₁, hdispatch, h⟩ := Outcome.bind_eq_ret h
      cases result with
      | ok result =>
        rw [List.cons_append, clientRun_dispatch hdispatch]
        exact ih h
      | error fault => exact absurd h (by simp)

/-- The message has as many arguments as the table says. -/
def FepControlMessage.HasArity (message : FepControlMessage) : Prop :=
  message.args.length = message.command.nArgs

theorem hasArity_message (p : Platform) (r : ClientRequest) : (r.message p).HasArity := by
  cases r <;> rfl

theorem hasArity_request (p : Platform) (event : ServerEvent) : (event.request p).HasArity := by
  cases event <;> rfl

theorem hasArity_of_mem_expectedMessages (p : Platform) (filter : Option FepEventFilter)
    (request : FepControlMessage) :
    ∀ message ∈ expectedMessages p filter request, message.HasArity := by
  intro message hmem
  rcases List.mem_cons.mp hmem with rfl | hmem
  · rfl
  rcases List.mem_append.mp hmem with hmem | hmem
  · cases filter with
    | none => exact absurd hmem List.not_mem_nil
    | some f =>
      obtain ⟨r, -, rfl⟩ := List.mem_map.mp hmem
      exact hasArity_message p r
  · unfold sentBack at hmem
    split at hmem
    · rw [List.mem_singleton.mp hmem]
      rfl
    · exact absurd hmem List.not_mem_nil

/-- What the program of a client does, as a run of the client. -/
def ClientAct.op : ClientAct → ClientOp
  | .answered filter _ => .dispatch filter
  | .asked r => .request r

namespace Session

/-- Client `i` follows the session, on a socket from which it can read what it has dispatched. -/
structure ClientFollows (s : Session e n) (i : Fin n) : Prop where
  sent : (s.client i).sent = wire e.platform (s.client i).written
  results : (s.client i).results = []
  arities : ∀ message ∈ (s.client i).written, message.HasArity
  readable : Readable e.platform (s.seen i)
  runs : ∀ fd rest, readSequence e.platform fd = (s.seen i).map some ++ rest →
    ∃ fd', clientRun e.platform (FepClient.new []) fd ((s.done i).map ClientAct.op) =
      .ret (.ok (s.client i)) fd' ∧ readSequence e.platform fd' = rest

variable {s s' : Session e n} {i : Fin n}

theorem clientFollows_start (first : Fep e.locale) (i : Fin n) :
    ClientFollows (start first n) i where
  sent := rfl
  results := rfl
  arities _ h := absurd h List.not_mem_nil
  readable := List.forall_mem_nil _
  runs fd _ h := ⟨fd, rfl, h⟩

theorem ClientFollows.frame (h : ClientFollows s i) (hclient : s'.client i = s.client i)
    (hdone : s'.done i = s.done i) : ClientFollows s' i where
  sent := by rw [hclient]; exact h.sent
  results := by rw [hclient]; exact h.results
  arities := by rw [hclient]; exact h.arities
  readable := by
    unfold seen
    rw [hdone]
    exact h.readable
  runs := by
    unfold seen
    rw [hclient, hdone]
    exact h.runs

theorem seen_step {act : ClientAct} (hdone : s'.done i = s.done i ++ [act]) :
    s'.seen i = s.seen i ++ act.request?.toList := by
  rw [seen, hdone, List.filterMap_append, seen]
  cases act <;> rfl

/-- What client `i` has written is new, and it has got there by one more operation. -/
theorem ClientFollows.step (h : ClientFollows s i) (act : ClientAct)
    (messages : List FepControlMessage)
    (hwrote : Wrote e.platform (s.client i) (s'.client i) messages)
    (harities : ∀ message ∈ messages, message.HasArity) (hdone : s'.done i = s.done i ++ [act])
    (hread : Readable e.platform act.request?.toList)
    (hop : ∀ fd rest, readSequence e.platform fd = act.request?.toList.map some ++ rest →
      ∃ fd', clientRun e.platform (s.client i) fd [act.op] = .ret (.ok (s'.client i)) fd' ∧
        readSequence e.platform fd' = rest) : ClientFollows s' i where
  sent := by rw [hwrote.sent h.results, hwrote.written, h.sent, wire_append]
  results := hwrote.results h.results
  arities message hmem := by
    rw [hwrote.written] at hmem
    rcases List.mem_append.mp hmem with hmem | hmem
    · exact h.arities message hmem
    · exact harities message hmem
  readable := by
    rw [seen_step hdone]
    exact List.forall_mem_append.mpr ⟨h.readable, hread⟩
  runs fd rest hreads := by
    rw [seen_step hdone, List.map_append, List.append_assoc] at hreads
    obtain ⟨fd₁, hrun, hreads₁⟩ := h.runs fd _ hreads
    rw [hdone, List.map_append]
    show ∃ fd', clientRun e.platform (FepClient.new []) fd (_ ++ [act.op]) = _ ∧ _
    rw [clientRun_concat hrun]
    exact hop fd₁ rest hreads₁

theorem clientFollows_ask {j : Fin n} (h : ∀ i, ClientFollows s i) (hidle : Idle (s.client j))
    {r : ClientRequest} {client' : FepClient}
    (hrun : performRequest e.platform (s.client j) r = .ok client')
    (outbox : Fin n → List FepControlMessage) :
    ∀ i, ClientFollows { s with
      client := Function.update s.client j client'
      done := Function.update s.done j (s.done j ++ [.asked r])
      outbox := outbox } i := by
  intro i
  by_cases hij : i = j
  · subst hij
    have hwrite : client' = (s.client i).write e.platform (r.message e.platform) :=
      Except.ok.inj (hrun.symm.trans (performRequest_idle hidle r))
    apply (h i).step (.asked r) [r.message e.platform]
    · show Wrote e.platform (s.client i) (Function.update s.client i client' i) _
      rw [Function.update_self, hwrite]
      exact wrote_foldl_write e.platform (s.client i) [r.message e.platform]
    · intro message hmem
      exact List.mem_singleton.mp hmem ▸ hasArity_message e.platform r
    · exact Function.update_self ..
    · exact List.forall_mem_nil _
    · intro fd rest hreads
      refine ⟨fd, ?_, hreads⟩
      show clientRun e.platform (s.client i) fd [.request r] =
        .ret (.ok (Function.update s.client i client' i)) fd
      rw [clientRun_request hrun, Function.update_self]
      rfl
  · exact (h i).frame (Function.update_of_ne hij _ _) (Function.update_of_ne hij _ _)

theorem clientFollows_dispatch {j : Fin n} (h : ∀ i, ClientFollows s i) (hinv : ClientInv s j)
    {filter : Option FepEventFilter} {request : FepControlMessage} (hmem : request ∈ s.inbox j)
    (hread : Readable e.platform [request]) {retval : Int} {client' : FepClient}
    (hrun : dispatchRequest e.platform filter (s.client j) request = .ok (retval, client'))
    (inbox outbox : Fin n → List FepControlMessage) :
    ∀ i, ClientFollows { s with
      inbox := inbox
      client := Function.update s.client j client'
      done := Function.update s.done j (s.done j ++ [.answered filter request])
      outbox := outbox } i := by
  intro i
  by_cases hij : i = j
  · subst hij
    obtain ⟨event, -, rfl⟩ := hinv.requests request hmem
    obtain ⟨client₁, hrun₁, -, hwrote⟩ :=
      dispatchRequest_spec e.platform filter hinv.idle (validRequest_request e.platform event)
    obtain ⟨-, rfl⟩ := Prod.mk.inj (Except.ok.inj (hrun₁.symm.trans hrun))
    apply (h i).step (.answered filter (event.request e.platform))
      (expectedMessages e.platform filter (event.request e.platform))
    · show Wrote e.platform (s.client i) (Function.update s.client i client₁ i) _
      rw [Function.update_self]
      exact hwrote
    · exact hasArity_of_mem_expectedMessages e.platform filter (event.request e.platform)
    · exact Function.update_self ..
    · exact hread
    · intro fd rest hreads
      obtain ⟨fd', hfirst, hreads'⟩ := readControlMessage_of_readSequence hreads
      refine ⟨fd', ?_, hreads'⟩
      have hdispatch :
          fepClientDispatch e.platform filter (s.client i) fd = .ret (.ok (0, client₁)) fd' := by
        rw [fepClientDispatch, hfirst, ← hrun₁]
        rfl
      show clientRun e.platform (s.client i) fd [.dispatch filter] =
        .ret (.ok (Function.update s.client i client₁ i)) fd'
      rw [clientRun_dispatch hdispatch, Function.update_self]
      rfl
  · exact (h i).frame (Function.update_of_ne hij _ _) (Function.update_of_ne hij _ _)

/-! ## Runs -/

/-- Both ends follow the session. -/
structure Coded (sockets : Sockets n) (first : Fep e.locale) (s : Session e n) : Prop where
  server : ∃ queued taken calls next, ServerFollows sockets first s queued taken calls next
  clients : ∀ i, ClientFollows s i

variable {sockets : Sockets n} {first : Fep e.locale}

/-- What a client writes goes into its outbox, which was empty. -/
theorem ServerFollows.written_new {queued taken : Fin n → List FepControlMessage}
    {calls : List ServerCall} {next : Option EventCall}
    (h : ServerFollows sockets first s queued taken calls next) {j : Fin n} {client' : FepClient}
    {messages : List FepControlMessage} (hwritten : client'.written = (s.client j).written ++ messages)
    (houtbox : s.outbox j = []) (i : Fin n) :
    (Function.update s.client j client' i).written = taken i ++ s.channel i ++
      Function.update s.outbox j (client'.written.drop (s.client j).written.length) i := by
  by_cases hij : i = j
  · subst hij
    have hbefore := h.written i
    rw [houtbox, List.append_nil] at hbefore
    rw [Function.update_self, Function.update_self, hwritten, List.drop_left, hbefore]
  · rw [Function.update_of_ne hij, Function.update_of_ne hij]
    exact h.written i

theorem move_coded (hinv : Inv s) (h : Coded sockets first s) (hmove : Move s s') :
    Coded sockets first s' := by
  obtain ⟨⟨queued, taken, calls, next, hserver⟩, hclients⟩ := h
  cases hmove with
  | sendRequest hphase hconnected =>
    exact ⟨⟨_, _, _, _, serverFollows_sendRequest hserver hphase _⟩,
      fun i => (hclients i).frame rfl rfl⟩
  | queueMessage hphase hchannel hread hcommand happend =>
    exact ⟨⟨_, _, _, _, serverFollows_queueMessage hserver hphase hchannel hread hcommand happend⟩,
      fun i => (hclients i).frame rfl rfl⟩
  | takeResponse hphase hchannel hread hcommand hcheck hflush =>
    exact ⟨⟨_, _, _, _,
        serverFollows_takeResponse hserver hphase hchannel hread hcommand hcheck hflush⟩,
      fun i => (hclients i).frame rfl rfl⟩
  | finish hphase =>
    exact ⟨⟨_, _, _, _, serverFollows_finish hserver hphase⟩, fun i => (hclients i).frame rfl rfl⟩
  | readMessage hphase hconnected hchannel hread hhandle =>
    exact ⟨⟨_, _, _, _,
        serverFollows_readMessage hserver hphase hconnected hchannel hread hhandle⟩,
      fun i => (hclients i).frame rfl rfl⟩
  | @dispatch j filter request rest retval client' hinbox houtbox hread hservable hrun =>
    have hmem : request ∈ s.inbox j := hinbox ▸ List.mem_cons_self
    obtain ⟨event, -, rfl⟩ := (hinv.clients j).requests request hmem
    obtain ⟨client₁, hrun₁, -, hwrote⟩ :=
      dispatchRequest_spec e.platform filter (hinv.clients j).idle
        (validRequest_request e.platform event)
    obtain ⟨-, rfl⟩ := Prod.mk.inj (Except.ok.inj (hrun₁.symm.trans hrun))
    exact ⟨⟨_, _, _, _,
        hserver.frame rfl rfl rfl rfl rfl (hserver.written_new hwrote.written houtbox)⟩,
      clientFollows_dispatch hclients (hinv.clients j) hmem hread hrun _ _⟩
  | @deliver j message rest houtbox =>
    refine ⟨⟨_, _, _, _,
        hserver.frame rfl rfl rfl rfl rfl fun i => (hserver.written i).trans ?_⟩,
      fun i => (hclients i).frame rfl rfl⟩
    show _ = taken i ++ Function.update s.channel j (s.channel j ++ [message]) i ++
      Function.update s.outbox j rest i
    by_cases hij : i = j
    · subst hij
      simp [houtbox]
    · rw [Function.update_of_ne hij, Function.update_of_ne hij]

theorem arrival_coded (hinv : Inv s) (h : Coded sockets first s) (harrival : Arrival s s') :
    Coded sockets first s' := by
  obtain ⟨⟨queued, taken, calls, next, hserver⟩, hclients⟩ := h
  cases harrival with
  | event event hphase hread hshown =>
    obtain ⟨call, hfollows⟩ := serverFollows_event hserver hphase hshown
    exact ⟨⟨_, _, _, _, hfollows⟩, fun i => (hclients i).frame rfl rfl⟩
  | childOutput hphase hlen hrun =>
    exact ⟨⟨_, _, _, _, serverFollows_childOutput hserver hphase hrun⟩,
      fun i => (hclients i).frame rfl rfl⟩
  | accept hphase hroom htable =>
    exact ⟨⟨_, _, _, _, serverFollows_accept hserver hphase hroom htable⟩,
      fun i => (hclients i).frame rfl rfl⟩
  | @ask j r client' hservable houtbox hrun =>
    have hidle := (hinv.clients j).idle
    have hwritten : client'.written = (s.client j).written ++ [r.message e.platform] := by
      rw [performRequest_idle hidle] at hrun
      rw [← Except.ok.inj hrun]
      rfl
    exact ⟨⟨_, _, _, _, hserver.frame rfl rfl rfl rfl rfl (hserver.written_new hwritten houtbox)⟩,
      clientFollows_ask hclients hidle hrun _⟩

theorem step_coded (hinv : Inv s) (h : Coded sockets first s) (hstep : Step s s') :
    Coded sockets first s' :=
  hstep.elim (arrival_coded hinv h) (move_coded hinv h)

theorem coded_of_reachable (sockets : Sockets n) (h : Reachable s) :
    ∃ first, ScreenStart first ∧ Coded sockets first s := by
  refine h.induction (P := fun s => ∃ first, ScreenStart first ∧ Coded sockets first s) ?_ ?_
  · intro first hfirst
    exact ⟨first, hfirst, ⟨_, _, _, _, serverFollows_start sockets first⟩, clientFollows_start first⟩
  · rintro s s' hreach ⟨first, hfirst, hcoded⟩ hstep
    exact ⟨first, hfirst, step_coded (inv_of_reachable hreach) hcoded hstep⟩

/-- Messages that can be read back are read from the bytes of their wire form. -/
theorem exists_readSequence_wire {p : Platform} {messages : List FepControlMessage}
    (harity : ∀ message ∈ messages, message.HasArity) (hreadable : Readable p messages) :
    ∃ reads, readSequence p ⟨wire p messages, List.replicate reads .full⟩ = messages.map some := by
  have hwire : ∃ wires : List WireMessage, wires.map (·.toFepControlMessage) = messages := by
    induction messages with
    | nil => exact ⟨[], rfl⟩
    | cons message messages ih =>
      obtain ⟨harg, hargs⟩ := List.forall_mem_cons.mp harity
      obtain ⟨hlen, hlens⟩ := List.forall_mem_cons.mp hreadable
      obtain ⟨wires, rfl⟩ := ih hargs hlens
      refine ⟨⟨message, harg, fun arg hmem => ?_⟩ :: wires, rfl⟩
      have hfits := (hlen arg hmem).fits
      have hlt := p.bufsiz_lt
      omega
  obtain ⟨wires, rfl⟩ := hwire
  refine ⟨(wires.map (·.reads)).sum, ?_⟩
  have hread := readSequence_wire p wires [] [] hreadable
  have hend : readSequence p ⟨[], []⟩ = [] := by
    rw [readSequence]
    rfl
  rw [List.append_nil, List.append_nil, hend, List.append_nil] at hread
  rw [hread, List.map_map]
  rfl

/-- All that a client has written can be read back. -/
theorem readable_written (h : Reachable s) {queued taken : Fin n → List FepControlMessage}
    {calls : List ServerCall} {next : Option EventCall}
    (hfollows : ServerFollows sockets first s queued taken calls next) (i : Fin n) :
    Readable e.platform (s.client i).written := by
  have hserved := served_of_reachable h
  rw [hfollows.written i]
  refine List.forall_mem_append.mpr ⟨List.forall_mem_append.mpr ⟨hfollows.readable i, ?_⟩, ?_⟩
  · exact fun message hmem => List.forall_mem_singleton.mp (hserved.channel i message hmem).1
  · exact fun message hmem => List.forall_mem_singleton.mp (hserved.outbox i message hmem).1

/-- **A session over bytes.** Between two events, in whatever order the session has gone: the server, run on
the bytes that the clients have sent, has the clients in its table, has dispatched the same messages and
written the same keys in the same order, shows the same, and has the messages still to read that are on
their way. The clients, run on the bytes that the server has sent, have become what they are in the
session. -/
theorem over_bytes (h : Reachable s) (hphase : s.phase = .idle) (sockets : Sockets n) :
    ∃ (first : Fep e.locale) (calls : List ServerCall) (reads : Fin n → Nat), ScreenStart first ∧
      ∀ links : BitVec 32 → ClientLink e,
        (∀ i, links (sockets.fd i) =
          .new first ⟨(s.client i).sent, List.replicate (reads i) .full⟩) →
        ∃ server, serverCalls (.start first links) calls = .ok (some server) ∧
          sockets.Listed s.connected server.clients ∧ server.fep = s.fep ∧
          server.acts = s.acts.map (ServerAct.map sockets.fd) ∧
          ∀ i, (server.link (sockets.fd i)).reads = (s.channel i ++ s.outbox i).map some ∧
            ∃ reads' fd, clientRun e.platform (FepClient.new [])
                ⟨server.sent (sockets.fd i), List.replicate reads' .full⟩
                ((s.done i).map ClientAct.op) = .ret (.ok (s.client i)) fd := by
  have hinv := inv_of_reachable h
  obtain ⟨first, hfirst, ⟨queued, taken, calls, next, hfollows⟩, hcoded⟩ := coded_of_reachable sockets h
  choose reads hreads using
    fun i => exists_readSequence_wire (hcoded i).arities (readable_written h hfollows i)
  refine ⟨first, calls, reads, hfirst, fun links hlinks => ?_⟩
  have hsupplies : Supplies sockets links taken fun i => (s.channel i ++ s.outbox i).map some := by
    intro i
    rw [hlinks i]
    refine ⟨rfl, ?_⟩
    show readSequence e.platform _ = _
    rw [(hcoded i).sent, hreads i, hfollows.written i, List.append_assoc, List.map_append]
  obtain ⟨before, server, hcalls, hat⟩ := hfollows.runs _ _ hsupplies
  obtain rfl := hat.eq_of_idle hphase
  have htold (i : Fin n) :
      s.seen i = (concerning i s.past).map (ServerEvent.request e.platform) := by
    have htold := (hinv.clients i).told
    rwa [hinv.inbox_eq_nil (by rw [hphase]; rfl), hphase, List.append_nil, SessionPhase.told,
      Option.toList_none, List.append_nil] at htold
  -- what has been sent to a client is what it has seen
  have hsent (i : Fin n) : server.sent (sockets.fd i) = wire e.platform (s.seen i) := by
    rw [htold, hat.sent i, hphase]
    simp [SessionPhase.answered, SessionPhase.asked]
  have harity (i : Fin n) : ∀ message ∈ s.seen i, message.HasArity := by
    rw [htold]
    intro message hmem
    obtain ⟨event, -, rfl⟩ := List.mem_map.mp hmem
    exact hasArity_request e.platform event
  refine ⟨server, hcalls, hat.listed, hat.fep, hat.acts, fun i => ⟨?_, ?_⟩⟩
  · have hqueue := hfollows.queue i
    rw [hphase] at hqueue
    have hnil : queued i = [] := hqueue
    rw [hat.reads i, hnil]
    rfl
  · obtain ⟨reads', hreads'⟩ := exists_readSequence_wire (harity i) (hcoded i).readable
    obtain ⟨fd, hrun, -⟩ := (hcoded i).runs _ [] (hreads'.trans (List.append_nil _).symm)
    exact ⟨reads', fd, by rw [hsent i]; exact hrun⟩

/-- The socket of one client. -/
def socketFive : Sockets 1 where
  fd _ := 5
  valid _ := rfl
  injective := Function.injective_of_subsingleton _

theorem over_bytes_one_client : ∃ s : Session .default 1,
    s.seen 0 = [keyRequest .x86_64 keyA.toKey] ∧
    ∃ (first : Fep Locale.c) (calls : List ServerCall) (reads : Fin 1 → Nat), ScreenStart first ∧
      ∀ links : BitVec 32 → ClientLink .default,
        (∀ i, links (socketFive.fd i) =
          .new first ⟨(s.client i).sent, List.replicate (reads i) .full⟩) →
        ∃ server, serverCalls (.start first links) calls = .ok (some server) ∧
          socketFive.Listed s.connected server.clients ∧ server.fep = s.fep ∧
          server.acts = s.acts.map (ServerAct.map socketFive.fd) ∧
          ∀ i, (server.link (socketFive.fd i)).reads = (s.channel i ++ s.outbox i).map some ∧
            ∃ reads' fd, clientRun .x86_64 (FepClient.new [])
                ⟨server.sent (socketFive.fd i), List.replicate reads' .full⟩
                ((s.done i).map ClientAct.op) = .ret (.ok (s.client i)) fd := by
  obtain ⟨s, hreach, hrest, -, hseen, -⟩ := exists_sentBack (e := .default) rfl
  exact ⟨s, hseen, over_bytes hreach hrest.phase socketFive⟩

end Session

end LibFep
