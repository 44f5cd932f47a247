import LibFep.Client.Requests
import LibFep.Control.ReadSequence

/-!
# LibFep — a client answers the server

`command_key_event`, `command_resize_event` and `fep_client_dispatch` of `libfep/client.c`, with
any event filter.

* **`dispatchRequest_spec`** — one dispatch writes the RESPONSE, then what the filter has
  requested, then the key itself if nobody wanted it.
* **`answersEach_of_reads`** — the same for each dispatch of a run with requests made in between, from a
  client that is idle, as long as the requests are read.
-/

namespace LibFep

open Lib

/-! ## Events and filters -/

/-- `FepEvent`, as the filter sees it. -/
inductive FepEvent where
  | keyPress (keyval modifiers : BitVec 32) (source : List UInt8)
  | resized (cols rows : BitVec 32)
  deriving DecidableEq, Repr

/-- What an event filter does with an event: the requests it makes, and the `int` it returns. -/
abbrev FepEventFilter := FepEvent → List ClientRequest × BitVec 32

def callFilter (p : Platform) (filter : FepEventFilter) (client : FepClient) (event : FepEvent) :
    Except Fault (BitVec 32 × FepClient) := do
  let client ← (filter event).1.foldlM (performRequest p) client
  return ((filter event).2, client)

/-- `request->args[index]`. -/
def requestArg (request : FepControlMessage) (index : Nat) : Except Fault (List UInt8) :=
  match request.args[index]? with
  | some arg => .ok arg
  | none => .error .badAccess

/-- The two numbers that both events begin with, `none` if one cannot be read. -/
def readEventNumbers (p : Platform) (request : FepControlMessage) :
    Except Fault (Option (BitVec 32 × BitVec 32)) := do
  let some first ← controlMessageReadUint32Arg p request 0 | return none
  let some second ← controlMessageReadUint32Arg p request 1 | return none
  return some (first, second)

/-- What the two handlers have in common: the response, with the value of the filter if there is
one and the event could be read. The first component is `intval`. -/
def answerEvent (p : Platform) (filter : Option FepEventFilter) (client : FepClient)
    (command : FepControlCommand) (event : Option FepEvent) :
    Except Fault (BitVec 32 × FepControlMessage × FepClient) := do
  let (_, response) ← controlMessageWriteUint8Arg (controlMessageAllocArgs .response 2) 0
    command.toByte
  match event, filter with
  -- the event could not be read
  | none, _ => return (-1, response, client)
  -- there is no filter: the second argument of the response stays empty
  | some _, none => return (0, response, client)
  | some event, some filter =>
    let (intval, client) ← callFilter p filter client event
    let (_, response) ← controlMessageWriteUint32Arg p response 1 intval
    return (intval, response, client)

/-- The key event in a request. The source bytes are the third argument. -/
def keyEvent (p : Platform) (request : FepControlMessage) : Except Fault (Option FepEvent) := do
  let some (keyval, modifiers) ← readEventNumbers p request | return none
  let source ← requestArg request 2
  return some (.keyPress keyval modifiers source)

def resizeEvent (p : Platform) (request : FepControlMessage) :
    Except Fault (Option FepEvent) := do
  let some (cols, rows) ← readEventNumbers p request | return none
  return some (.resized cols rows)

def commandKeyEvent (p : Platform) (filter : Option FepEventFilter) (client : FepClient)
    (request : FepControlMessage) : Except Fault (FepControlMessage × FepClient) := do
  let event ← keyEvent p request
  let (intval, response, client) ← answerEvent p filter client .keyEvent event
  -- if key is not handled, send back the original input to the server
  if intval = 0 then
    let source ← requestArg request 2
    let client ← fepClientSendData p client source
    return (response, client)
  else return (response, client)

def commandResizeEvent (p : Platform) (filter : Option FepEventFilter) (client : FepClient)
    (request : FepControlMessage) : Except Fault (FepControlMessage × FepClient) := do
  let event ← resizeEvent p request
  let (_, response, client) ← answerEvent p filter client .resizeEvent event
  return (response, client)

/-! ## Dispatch -/

/-- The handler of a command in `fep_client_dispatch`. -/
def clientHandler (p : Platform) (filter : Option FepEventFilter) :
    FepControlCommand →
      Option (FepClient → FepControlMessage → Except Fault (FepControlMessage × FepClient))
  | .keyEvent => some (commandKeyEvent p filter)
  | .resizeEvent => some (commandResizeEvent p filter)
  | _ => none

/-- `fep_client_dispatch` once it has read a request. -/
def dispatchRequest (p : Platform) (filter : Option FepEventFilter) (client : FepClient)
    (request : FepControlMessage) : Except Fault (Int × FepClient) :=
  match clientHandler p filter request.command with
  | none => .ok (-1, client)
  | some handler => do
    let (response, client) ← handler { client with filterRunning := true } request
    let client := { client.write p response with filterRunning := false }
    -- flush the requests of the filter
    let (heap, client) ← flushMessages (fun client message => .ok (client.write p message))
      client.heap client.messages client
    return (0, { client with heap := heap, messages := none })

def fepClientDispatch (p : Platform) (filter : Option FepEventFilter) (client : FepClient)
    (fd : Fd) : Outcome (Except Fault (Int × FepClient)) :=
  (readControlMessage p fd).bind fun request fd =>
    .ret (request.elim (.ok (-1, client)) (dispatchRequest p filter client)) fd

/-! ## What a dispatch writes -/

/-- A request whose arguments the client can read: two numbers of four bytes, and for a key the
bytes it came from. -/
inductive ValidRequest : FepControlMessage → Prop
  | keyEvent (keyval modifiers source : List UInt8) (hkeyval : keyval.length = 4)
      (hmodifiers : modifiers.length = 4) : ValidRequest ⟨.keyEvent, [keyval, modifiers, source]⟩
  | resizeEvent (cols rows : List UInt8) (hcols : cols.length = 4) (hrows : rows.length = 4) :
      ValidRequest ⟨.resizeEvent, [cols, rows]⟩

def requestEvent (p : Platform) (request : FepControlMessage) : FepEvent :=
  let number (index : Nat) := p.uint32Of (request.args.getD index [])
  if request.command = .keyEvent then
    .keyPress (number 0) (number 1) (request.args.getD 2 [])
  else .resized (number 0) (number 1)

/-- The RESPONSE to a request: its command, and the value of the filter if there is one. -/
def expectedResponse (p : Platform) (filter : Option FepEventFilter)
    (request : FepControlMessage) : FepControlMessage :=
  ⟨.response, [[request.command.toByte],
    filter.elim [] fun f => p.wireWord (f (requestEvent p request)).2]⟩

def requestedMessages (p : Platform) (filter : Option FepEventFilter)
    (request : FepControlMessage) : List FepControlMessage :=
  filter.elim [] fun f => (f (requestEvent p request)).1.map (·.message p)

/-- The filter has handled the event: there is one, and it returns another value than 0. -/
def Handles (p : Platform) (filter : Option FepEventFilter) (request : FepControlMessage) : Prop :=
  ∃ f ∈ filter, (f (requestEvent p request)).2 ≠ 0

instance (p : Platform) (filter : Option FepEventFilter) (request : FepControlMessage) :
    Decidable (Handles p filter request) :=
  match filter with
  | none => .isFalse (by simp [Handles])
  | some f => decidable_of_iff ((f (requestEvent p request)).2 ≠ 0) (by simp [Handles])

/-- The key sent back when nobody has handled it. -/
def sentBack (p : Platform) (filter : Option FepEventFilter) (request : FepControlMessage) :
    List FepControlMessage :=
  if request.command = .keyEvent ∧ ¬ Handles p filter request then
    [⟨.sendData, [request.args.getD 2 []]⟩]
  else []

/-- All that one dispatch writes. -/
def expectedMessages (p : Platform) (filter : Option FepEventFilter)
    (request : FepControlMessage) : List FepControlMessage :=
  expectedResponse p filter request ::
    (requestedMessages p filter request ++ sentBack p filter request)

/-! ## The handlers -/

theorem readEventNumbers_ok (p : Platform) {request : FepControlMessage} {a b : List UInt8}
    (ha : request.args[0]? = some a) (hb : request.args[1]? = some b) (hlena : a.length = 4)
    (hlenb : b.length = 4) :
    readEventNumbers p request = .ok (some (p.uint32Of a, p.uint32Of b)) := by
  unfold readEventNumbers
  rw [controlMessageReadUint32Arg_of_length p ha hlena]
  show (controlMessageReadUint32Arg p request 1 >>= _) = _
  rw [controlMessageReadUint32Arg_of_length p hb hlenb]
  rfl

theorem callFilter_holding (p : Platform) (filter : FepEventFilter) (event : FepEvent)
    {start client : FepClient} {queue : List FepControlMessage} (h : Holding start client queue) :
    ∃ client', callFilter p filter client event = .ok ((filter event).2, client') ∧
      Holding start client' (queue ++ (filter event).1.map (·.message p)) := by
  have hfold : ∀ (rs : List ClientRequest) (client : FepClient) (queue : List FepControlMessage),
      Holding start client queue → ∃ client', rs.foldlM (performRequest p) client = .ok client' ∧
        Holding start client' (queue ++ rs.map (·.message p)) := by
    intro rs
    induction rs with
    | nil =>
      intro client queue h
      exact ⟨client, rfl, by simpa using h⟩
    | cons r rs ih =>
      intro client queue h
      obtain ⟨client₁, hreq, h₁⟩ := h.request p (r.message p)
      obtain ⟨client₂, hrest, h₂⟩ := ih client₁ _ h₁
      refine ⟨client₂, ?_, by simpa using h₂⟩
      rw [List.foldlM_cons, performRequest_eq, hreq]
      exact hrest
  obtain ⟨client', hcalls, h'⟩ := hfold (filter event).1 client queue h
  refine ⟨client', ?_, h'⟩
  unfold callFilter
  rw [hcalls]
  rfl

/-- The value the handlers act on: that of the filter, or 0 without one. -/
def filterValue (filter : Option FepEventFilter) (event : FepEvent) : BitVec 32 :=
  filter.elim 0 fun f => (f event).2

theorem handles_iff (p : Platform) (filter : Option FepEventFilter) (request : FepControlMessage) :
    Handles p filter request ↔ filterValue filter (requestEvent p request) ≠ 0 := by
  cases filter <;> simp [Handles, filterValue]

/-- What both handlers do with an event they could read. -/
theorem answerEvent_holding (p : Platform) (filter : Option FepEventFilter)
    (request : FepControlMessage) {start client : FepClient} {queue : List FepControlMessage}
    (h : Holding start client queue) :
    ∃ client', answerEvent p filter client request.command (some (requestEvent p request)) =
        .ok (filterValue filter (requestEvent p request), expectedResponse p filter request,
          client') ∧
      Holding start client' (queue ++ requestedMessages p filter request) := by
  cases filter with
  | none => exact ⟨client, rfl, by simpa [requestedMessages] using h⟩
  | some f =>
    obtain ⟨client', hcall, h'⟩ := callFilter_holding p f (requestEvent p request) h
    refine ⟨client', ?_, h'⟩
    unfold answerEvent
    show (callFilter p f client (requestEvent p request) >>= _) = _
    rw [hcall]
    rfl

theorem commandKeyEvent_holding (p : Platform) (filter : Option FepEventFilter)
    {keyval modifiers source : List UInt8} (hkeyval : keyval.length = 4)
    (hmodifiers : modifiers.length = 4) {request : FepControlMessage}
    (hrequest : request = ⟨.keyEvent, [keyval, modifiers, source]⟩) {start client : FepClient}
    (h : Holding start client []) :
    ∃ client', commandKeyEvent p filter client request =
        .ok (expectedResponse p filter request, client') ∧
      Holding start client' (requestedMessages p filter request ++ sentBack p filter request) := by
  obtain ⟨client₁, hanswer, h₁⟩ := answerEvent_holding p filter request h
  rw [List.nil_append] at h₁
  have hcommand : request.command = .keyEvent := by rw [hrequest]
  have hsource : requestArg request 2 = .ok source := by rw [hrequest]; rfl
  have hevent : keyEvent p request = .ok (some (requestEvent p request)) := by
    unfold keyEvent
    rw [readEventNumbers_ok p (a := keyval) (b := modifiers) (by simp [hrequest])
      (by simp [hrequest]) hkeyval hmodifiers]
    show (requestArg request 2 >>= _) = _
    rw [hsource, hrequest]
    rfl
  rw [hcommand] at hanswer
  unfold commandKeyEvent
  rw [hevent]
  show ∃ client', (answerEvent p filter client .keyEvent (some (requestEvent p request)) >>= _)
    = _ ∧ _
  rw [hanswer]
  show ∃ client', (if filterValue filter (requestEvent p request) = 0 then _ else _) = _ ∧ _
  by_cases hzero : filterValue filter (requestEvent p request) = 0
  · -- not handled: the source bytes are queued
    have hback : sentBack p filter request = [⟨.sendData, [source]⟩] := by
      rw [sentBack, if_pos ⟨hcommand, by rw [handles_iff]; simpa using hzero⟩, hrequest]
      rfl
    obtain ⟨client₂, hsend, h₂⟩ := h₁.request p ⟨.sendData, [source]⟩
    refine ⟨client₂, ?_, by rwa [hback]⟩
    rw [if_pos hzero, hsource]
    show (performRequest p client₁ (.sendData source) >>= _) = _
    rw [performRequest_eq]
    show (clientRequest p client₁ ⟨.sendData, [source]⟩ >>= _) = _
    rw [hsend]
    rfl
  -- handled: nothing more is queued
  · have hback : sentBack p filter request = [] := by
      rw [sentBack, if_neg]
      rw [handles_iff]
      exact fun hboth => hboth.2 hzero
    refine ⟨client₁, by rw [if_neg hzero]; rfl, ?_⟩
    rwa [hback, List.append_nil]

theorem commandResizeEvent_holding (p : Platform) (filter : Option FepEventFilter)
    {cols rows : List UInt8} (hcols : cols.length = 4) (hrows : rows.length = 4)
    {request : FepControlMessage} (hrequest : request = ⟨.resizeEvent, [cols, rows]⟩)
    {start client : FepClient} (h : Holding start client []) :
    ∃ client', commandResizeEvent p filter client request =
        .ok (expectedResponse p filter request, client') ∧
      Holding start client' (requestedMessages p filter request ++ sentBack p filter request) := by
  obtain ⟨client₁, hanswer, h₁⟩ := answerEvent_holding p filter request h
  rw [List.nil_append] at h₁
  have hcommand : request.command = .resizeEvent := by rw [hrequest]
  have hevent : resizeEvent p request = .ok (some (requestEvent p request)) := by
    unfold resizeEvent
    rw [readEventNumbers_ok p (a := cols) (b := rows) (by simp [hrequest])
      (by simp [hrequest]) hcols hrows, hrequest]
    rfl
  have hback : sentBack p filter request = [] := by
    rw [sentBack, if_neg]
    rw [hcommand]
    exact fun hboth => absurd hboth.1 (by decide)
  rw [hcommand] at hanswer
  refine ⟨client₁, ?_, by rwa [hback, List.append_nil]⟩
  unfold commandResizeEvent
  rw [hevent]
  show (answerEvent p filter client .resizeEvent (some (requestEvent p request)) >>= _) = _
  rw [hanswer]
  rfl

/-- The handler of a valid request: the response is returned, and the rest is queued. -/
theorem clientHandler_holding (p : Platform) (filter : Option FepEventFilter)
    {request : FepControlMessage} (hvalid : ValidRequest request) {start client : FepClient}
    (h : Holding start client []) :
    ∃ handler client', clientHandler p filter request.command = some handler ∧
      handler client request = .ok (expectedResponse p filter request, client') ∧
      Holding start client' (requestedMessages p filter request ++ sentBack p filter request) := by
  cases hvalid with
  | keyEvent keyval modifiers source hkeyval hmodifiers =>
    obtain ⟨client', hrun, h'⟩ := commandKeyEvent_holding p filter hkeyval hmodifiers rfl h
    exact ⟨_, client', rfl, hrun, h'⟩
  | resizeEvent cols rows hcols hrows =>
    obtain ⟨client', hrun, h'⟩ := commandResizeEvent_holding p filter hcols hrows rfl h
    exact ⟨_, client', rfl, hrun, h'⟩

/-! ## One dispatch -/

/-- Between dispatches: no filter runs and nothing is queued. -/
structure Idle (client : FepClient) : Prop where
  stopped : client.filterRunning = false
  empty : client.messages = none

theorem idle_new (results : List WriteResult) : Idle (FepClient.new results) := ⟨rfl, rfl⟩

/-- What has been written since `client`: the messages, in order, and where every write is complete
their bytes. -/
structure Wrote (p : Platform) (client client' : FepClient) (messages : List FepControlMessage) :
    Prop where
  written : client'.written = client.written ++ messages
  sent : client.results = [] → client'.sent = client.sent ++ wire p messages
  results : client.results = [] → client'.results = []

theorem wrote_nil (p : Platform) (client : FepClient) : Wrote p client client [] :=
  ⟨by simp, by simp, id⟩

theorem Wrote.trans {p : Platform} {client client₁ client₂ : FepClient}
    {messages messages' : List FepControlMessage} (h : Wrote p client client₁ messages)
    (h' : Wrote p client₁ client₂ messages') : Wrote p client client₂ (messages ++ messages') where
  written := by rw [h'.written, h.written, List.append_assoc]
  sent hres := by rw [h'.sent (h.results hres), h.sent hres, wire_append, List.append_assoc]
  results hres := h'.results (h.results hres)

theorem wrote_foldl_write (p : Platform) (client : FepClient) (messages : List FepControlMessage) :
    Wrote p client (messages.foldl (FepClient.write p) client) messages where
  written := written_foldl_write p client messages
  sent hres := (sent_foldl_write p hres messages).1
  results hres := (sent_foldl_write p hres messages).2

theorem holding_start {client : FepClient} (hidle : Idle client) :
    Holding client { client with filterRunning := true } [] :=
  ⟨by rw [FepClient.Queues, hidle.empty]; exact NodeHeap.isQueue_nil _, rfl, rfl, rfl, rfl⟩

/-- What is written once the handler has returned a response: this, and what is queued. -/
theorem dispatchRequest_of_handler (p : Platform) {filter : Option FepEventFilter}
    {client client₁ : FepClient} {request response : FepControlMessage}
    {queue : List FepControlMessage}
    {handler : FepClient → FepControlMessage → Except Fault (FepControlMessage × FepClient)}
    (hhandler : clientHandler p filter request.command = some handler)
    (hrun : handler { client with filterRunning := true } request = .ok (response, client₁))
    (h₁ : Holding client client₁ queue) :
    ∃ client', dispatchRequest p filter client request = .ok (0, client') ∧ Idle client' ∧
      Wrote p client client' (response :: queue) := by
  obtain ⟨client₂, hclient₂⟩ : ∃ client₂ : FepClient, client₂ =
      { client₁.write p response with filterRunning := false } := ⟨_, rfl⟩
  -- writing the response leaves the queue alone
  have hqueues : client₂.Queues queue := by
    rw [hclient₂]
    exact h₁.queues
  obtain ⟨heap, hflush⟩ := flushMessages_of_isQueue
    (fun client message => .ok (client.write p message)) hqueues client₂
  rw [foldlM_ok] at hflush
  have hstate := state_foldl_write p client₂ queue
  have hwrote := wrote_foldl_write p client₂ queue
  -- the response is written by the client that the handler has left
  have hresponse : Wrote p client client₂ [response] := by
    have hwrite := wrote_foldl_write p client₁ [response]
    rw [hclient₂]
    refine ⟨?_, ?_, ?_⟩
    · rw [← h₁.written]
      exact hwrite.written
    · intro hres
      rw [← h₁.sent]
      exact hwrite.sent (h₁.results.trans hres)
    · intro hres
      exact hwrite.results (h₁.results.trans hres)
  have hall := hresponse.trans hwrote
  refine ⟨{ queue.foldl (FepClient.write p) client₂ with heap := heap, messages := none }, ?_,
    ⟨?_, rfl⟩, ⟨hall.written, hall.sent, hall.results⟩⟩
  · unfold dispatchRequest
    rw [hhandler]
    show (handler { client with filterRunning := true } request >>= _) = _
    rw [hrun]
    show (flushMessages (fun (client : FepClient) message => .ok (client.write p message)) _ _ _
      >>= _) = _
    rw [← hclient₂, hflush]
    rfl
  · exact hstate.1.trans (by rw [hclient₂])

/-- **One dispatch of a valid request** writes the response, the messages the filter has requested
in order, and the key if it was not handled. -/
theorem dispatchRequest_spec (p : Platform) (filter : Option FepEventFilter) {client : FepClient}
    (hidle : Idle client) {request : FepControlMessage} (hvalid : ValidRequest request) :
    ∃ client', dispatchRequest p filter client request = .ok (0, client') ∧ Idle client' ∧
      Wrote p client client' (expectedMessages p filter request) := by
  obtain ⟨handler, client₁, hhandler, hrun, h₁⟩ :=
    clientHandler_holding p filter hvalid (holding_start hidle)
  exact dispatchRequest_of_handler p hhandler hrun h₁

/-! ## Runs -/

/-- What a program does with its client: it dispatches a request of the server, with the filter it
has set at that time, or makes a request of its own. -/
inductive ClientOp where
  | dispatch (filter : Option FepEventFilter)
  | request (r : ClientRequest)

def clientRun (p : Platform) : FepClient → Fd → List ClientOp → Outcome (Except Fault FepClient)
  | client, fd, [] => .ret (.ok client) fd
  | client, fd, .request r :: ops =>
    match performRequest p client r with
    | .ok client => clientRun p client fd ops
    | .error fault => .ret (.error fault) fd
  | client, fd, .dispatch filter :: ops =>
    (fepClientDispatch p filter client fd).bind fun result fd =>
      match result with
      | .ok (_, client) => clientRun p client fd ops
      | .error fault => .ret (.error fault) fd

/-- All that a run writes when its dispatches meet the given requests. -/
def expectedRun (p : Platform) : List ClientOp → List FepControlMessage → List FepControlMessage
  | [], _ => []
  | .request r :: ops, requests => r.message p :: expectedRun p ops requests
  | .dispatch _ :: _, [] => []
  | .dispatch filter :: ops, request :: requests =>
    expectedMessages p filter request ++ expectedRun p ops requests

def dispatches : List ClientOp → Nat
  | [] => 0
  | .request _ :: ops => dispatches ops
  | .dispatch _ :: ops => dispatches ops + 1

/-- Every call of `fep_client_dispatch` in a run writes what is expected for the next of the requests, and
leaves the client idle. What is requested in between is written at once. -/
def AnswersEach (p : Platform) : FepClient → Fd → List ClientOp → List FepControlMessage → Prop
  | _, _, [], _ => True
  | client, fd, .request r :: ops, requests =>
    ∃ client', performRequest p client r = .ok client' ∧ Wrote p client client' [r.message p] ∧
      AnswersEach p client' fd ops requests
  | _, _, .dispatch _ :: _, [] => False
  | client, fd, .dispatch filter :: ops, request :: requests =>
    ∃ client' fd', fepClientDispatch p filter client fd = .ret (.ok (0, client')) fd' ∧
      Idle client' ∧ Wrote p client client' (expectedMessages p filter request) ∧
      AnswersEach p client' fd' ops requests

/-- **What a client writes.** However its dispatches and requests are mixed and whatever its filters
request, every dispatch of a valid request that is read writes one RESPONSE, then the requests of the
filter in order, then the key that was not handled, and nothing else; and it leaves the client idle for
the next one. -/
theorem answersEach_of_reads (p : Platform) (ops : List ClientOp) (client : FepClient) (fd : Fd)
    (requests : List FepControlMessage) (rest : List (Option FepControlMessage))
    (hidle : Idle client) (hvalid : ∀ request ∈ requests, ValidRequest request)
    (hreads : readSequence p fd = requests.map some ++ rest)
    (hcount : dispatches ops = requests.length) : AnswersEach p client fd ops requests := by
  induction ops generalizing client fd requests with
  | nil => trivial
  | cons op ops ih =>
    cases op with
    | request r =>
      -- made outside a filter, the request is written at once
      have hperform : performRequest p client r = .ok (client.write p (r.message p)) := by
        rw [performRequest_eq, clientRequest_idle p hidle.stopped]
      exact ⟨_, hperform, wrote_foldl_write p client [r.message p],
        ih _ fd requests ⟨hidle.stopped, hidle.empty⟩ hvalid hreads hcount⟩
    | dispatch filter =>
      cases requests with
      | nil => exact absurd hcount (by simp [dispatches])
      | cons request requests =>
        -- the dispatch reads the next request and leaves the client idle
        obtain ⟨fd₁, hread, hreads₁⟩ := readControlMessage_of_readSequence hreads
        obtain ⟨client₁, hdispatch, hidle₁, hwrote₁⟩ :=
          dispatchRequest_spec p filter hidle (hvalid request List.mem_cons_self)
        refine ⟨client₁, fd₁, ?_, hidle₁, hwrote₁, ih client₁ fd₁ requests hidle₁
          (fun r hr => hvalid r (List.mem_cons_of_mem _ hr)) hreads₁ (Nat.succ.inj hcount)⟩
        rw [fepClientDispatch, hread]
        show Outcome.ret (dispatchRequest p filter client request) fd₁ = _
        rw [hdispatch]

/-- What the whole run writes. -/
theorem AnswersEach.run {p : Platform} {ops : List ClientOp} {client : FepClient} {fd : Fd}
    {requests : List FepControlMessage} (h : AnswersEach p client fd ops requests)
    (hidle : Idle client) :
    ∃ client' fd', clientRun p client fd ops = .ret (.ok client') fd' ∧ Idle client' ∧
      Wrote p client client' (expectedRun p ops requests) := by
  induction ops generalizing client fd requests with
  | nil => exact ⟨client, fd, rfl, hidle, wrote_nil p client⟩
  | cons op ops ih =>
    cases op with
    | request r =>
      obtain ⟨client₁, hperform, hwrote₁, hrest⟩ := h
      have hidle₁ : Idle client₁ := by
        rw [performRequest_eq, clientRequest_idle p hidle.stopped] at hperform
        rw [← Except.ok.inj hperform]
        exact ⟨hidle.stopped, hidle.empty⟩
      obtain ⟨client', fd', hrun, hidle', hwrote⟩ := ih hrest hidle₁
      refine ⟨client', fd', ?_, hidle', hwrote₁.trans hwrote⟩
      rw [clientRun, hperform]
      exact hrun
    | dispatch filter =>
      cases requests with
      | nil => exact h.elim
      | cons request requests =>
        obtain ⟨client₁, fd₁, hdispatch, hidle₁, hwrote₁, hrest⟩ := h
        obtain ⟨client', fd', hrun, hidle', hwrote⟩ := ih hrest hidle₁
        refine ⟨client', fd', ?_, hidle', hwrote₁.trans hwrote⟩
        rw [clientRun, hdispatch]
        exact hrun

end LibFep
