import LibFep.Protocol.Session

/-!
# LibFep — all clients see the same events

What holds along every run of a session, whatever the filters do, whenever clients connect and
whatever their programs ask for in between.

* **`Session.step_inv`** — every step keeps the invariant: one lemma for each.
* **`Session.seen_eq_since`** — a client has dispatched the events since it has been connected, in the
  order of the server, up to the one the server is busy with.
* **`Session.seen_append_seen`** — so of two clients the later has seen the end of what the other has.
* **`Session.dispatched_append`** — of the messages that a client writes the server dispatches all but
  the responses, each once and in their order.
* **`Session.keysWritten_eq`** — the server writes a key itself exactly if nobody was connected.
-/

namespace LibFep

namespace Session

open Lib

variable {n : Nat} {e : Setting}

/-! ## Lists of acts and events -/

@[simp] theorem concerning_append (i : Fin n) (events events' : List (ServerEvent × Nat)) :
    concerning i (events ++ events') = concerning i events ++ concerning i events' := by
  simp [concerning]

theorem concerning_singleton (i : Fin n) (event : ServerEvent) (clients : Nat) :
    concerning i [(event, clients)] = if i.val < clients then [event] else [] := by
  by_cases h : i.val < clients <;> simp [concerning, h]

@[simp] theorem dispatchedFrom_append (i : Fin n) (acts acts' : List (ServerAct (Fin n))) :
    dispatchedFrom i (acts ++ acts') = dispatchedFrom i acts ++ dispatchedFrom i acts' :=
  List.filterMap_append ..

@[simp] theorem keysWritten_append (acts acts' : List (ServerAct (Fin n))) :
    keysWritten (acts ++ acts') = keysWritten acts ++ keysWritten acts' :=
  List.filterMap_append ..

theorem dispatchedFrom_writeKeys (i : Fin n) (keys : List Key) :
    dispatchedFrom i (keys.map ServerAct.writeKey) = [] := by
  simp [dispatchedFrom]

theorem dispatchOf_ok {j : Fin n} {done done' : Fep e.locale × List (ServerAct (Fin n))}
    {message : FepControlMessage} (h : dispatchOf j done message = .ok done') :
    done'.2 = done.2 ++ [.dispatch j message] := by
  obtain ⟨shown, -, h⟩ := bind_eq_ok.mp h
  rw [← Except.ok.inj h]

theorem foldlM_dispatchOf_ok {j : Fin n} {done done' : Fep e.locale × List (ServerAct (Fin n))}
    {messages : List FepControlMessage} (h : messages.foldlM (dispatchOf j) done = .ok done') :
    done'.2 = done.2 ++ messages.map (.dispatch j) := by
  induction messages generalizing done with
  | nil =>
    obtain rfl := Except.ok.inj h
    exact (List.append_nil _).symm
  | cons message messages ih =>
    rw [List.foldlM_cons] at h
    obtain ⟨mid, hfirst, hrest⟩ := bind_eq_ok.mp h
    rw [ih hrest, dispatchOf_ok hfirst, List.append_assoc]
    rfl

theorem dispatchedFrom_dispatches_self (j : Fin n) (messages : List FepControlMessage) :
    dispatchedFrom j (messages.map (.dispatch j)) = messages := by
  induction messages with
  | nil => rfl
  | cons message messages ih => simp [dispatchedFrom]

theorem dispatchedFrom_dispatches_ne {i j : Fin n} (h : i ≠ j)
    (messages : List FepControlMessage) :
    dispatchedFrom i (messages.map (.dispatch j)) = [] := by
  simp [dispatchedFrom, Ne.symm h]

theorem keysWritten_dispatches (j : Fin n) (messages : List FepControlMessage) :
    keysWritten (messages.map (.dispatch j)) = [] := by
  simp [keysWritten]

theorem pairwise_le_concat {counts : List Nat} {a b : Nat}
    (h : (counts ++ [a]).Pairwise (· ≤ ·)) (hab : a ≤ b) :
    (counts ++ [a] ++ [b]).Pairwise (· ≤ ·) := by
  refine List.pairwise_append.mpr ⟨h, List.pairwise_singleton .., fun c hc d hd => ?_⟩
  rw [List.mem_singleton.mp hd]
  rcases List.mem_append.mp hc with hc | hc
  · exact Nat.le_trans ((List.pairwise_append.mp h).2.2 c hc a (List.mem_singleton_self _)) hab
  · exact (List.mem_singleton.mp hc).symm ▸ hab

/-! ## The invariant of one client -/

/-- A client that the server does not wait for has no request, and no response is under way. -/
theorem ClientInv.quiet {s : Session e n} {i : Fin n} (h : ClientInv s i)
    (hawaits : s.phase.awaits i = 0) :
    s.inbox i = [] ∧ ∀ message ∈ s.channel i ++ s.outbox i, message.command ≠ .response := by
  have hzero := h.outstanding
  rw [hawaits, underWay] at hzero
  refine ⟨List.length_eq_zero_iff.mp (by omega), ?_⟩
  have hcount : responsesIn (s.channel i ++ s.outbox i) = 0 := by
    rw [responsesIn_append]
    omega
  intro message hmem hcommand
  exact absurd hcount (Nat.pos_iff_ne_zero.mp
    (List.countP_pos_iff.mpr ⟨message, hmem, by simpa using hcommand⟩))

/-- The invariant of a client from its parts after a step. -/
theorem ClientInv.of_parts {s : Session e n} {i : Fin n}
    {b o c q : List FepControlMessage} (hinbox : s.inbox i = b) (houtbox : s.outbox i = o)
    (hchannel : s.channel i = c) (hidle : Idle (s.client i))
    (htold : s.seen i ++ b =
      (concerning i s.past ++ (s.phase.told i).toList).map (ServerEvent.request e.platform))
    (houtstanding : b.length + responsesIn o + responsesIn c = s.phase.awaits i)
    (hrequests : ∀ request ∈ b, ∃ event ∈ s.phase.current, request = event.request e.platform)
    (hresponses : ∀ message ∈ c ++ o, message.command = .response →
      ∃ event ∈ s.phase.current, Answers (event.request e.platform) message)
    (hqueue : s.phase.Queue i q)
    (hconserved : dispatchedFrom i s.acts ++ q ++ requestsIn c ++ requestsIn o = s.wanted i) :
    ClientInv s i := by
  subst hinbox houtbox hchannel
  exact ⟨hidle, htold, houtstanding, hrequests, hresponses, q, hqueue, hconserved⟩

/-- Nothing has happened to client `i`. -/
theorem ClientInv.frame {s s' : Session e n} {i : Fin n} (h : ClientInv s i)
    (hinbox : s'.inbox i = s.inbox i) (hclient : s'.client i = s.client i)
    (hdone : s'.done i = s.done i) (houtbox : s'.outbox i = s.outbox i)
    (hchannel : s'.channel i = s.channel i)
    (hacts : dispatchedFrom i s'.acts = dispatchedFrom i s.acts)
    (htold : concerning i s'.past ++ (s'.phase.told i).toList =
      concerning i s.past ++ (s.phase.told i).toList)
    (hawaits : s'.phase.awaits i = s.phase.awaits i)
    (hqueue : ∀ queue, s.phase.Queue i queue → s'.phase.Queue i queue)
    (hcurrent : s'.phase.current = s.phase.current ∨ s.phase.awaits i = 0) :
    ClientInv s' i where
  idle := by rw [hclient]; exact h.idle
  told := by
    rw [seen, hdone, hinbox, htold]
    exact h.told
  outstanding := by
    rw [underWay, hinbox, houtbox, hchannel, hawaits]
    exact h.outstanding
  requests := by
    intro request hmem
    rw [hinbox] at hmem
    rcases hcurrent with hcurrent | hzero
    · rw [hcurrent]
      exact h.requests request hmem
    · rw [(h.quiet hzero).1] at hmem
      exact absurd hmem List.not_mem_nil
  responses := by
    intro message hmem hcommand
    rw [hchannel, houtbox] at hmem
    rcases hcurrent with hcurrent | hzero
    · rw [hcurrent]
      exact h.responses message hmem hcommand
    · exact absurd hcommand ((h.quiet hzero).2 message hmem)
  conserved := by
    obtain ⟨queue, hq, heq⟩ := h.conserved
    refine ⟨queue, hqueue queue hq, ?_⟩
    rw [hacts, hchannel, houtbox, wanted, hdone]
    exact heq

/-! ## What the server does -/

theorem inv_start (fep : Fep e.locale) (n : Nat) : Inv (start fep n) where
  connected := Nat.zero_le n
  bounded := trivial
  counts := by simp [start]
  written := rfl
  clients i :=
    { idle := idle_new []
      told := rfl
      outstanding := rfl
      requests := by simp [start]
      responses := by simp [start]
      conserved := ⟨[], rfl, rfl⟩ }

theorem inv_event {s : Session e n} (h : Inv s) (event : ServerEvent) (hphase : s.phase = .idle)
    (fep' : Fep e.locale) : Inv { s with phase := .broadcast event 0 false, fep := fep' } where
  connected := h.connected
  bounded := ⟨Nat.zero_le _, rfl⟩
  counts := h.counts
  written := h.written
  clients i := by
    refine (h.clients i).frame rfl rfl rfl rfl rfl rfl ?_ ?_ ?_ ?_
    · rw [hphase]
      simp [SessionPhase.told]
    · rw [hphase]
      rfl
    · rw [hphase]
      exact fun queue hq => hq
    · rw [hphase]
      exact Or.inr rfl

theorem inv_childOutput {s : Session e n} (h : Inv s) (fep' : Fep e.locale) :
    Inv { s with fep := fep' } where
  connected := h.connected
  bounded := h.bounded
  counts := h.counts
  written := h.written
  clients i := (h.clients i).frame rfl rfl rfl rfl rfl rfl rfl rfl (fun _ hq => hq) (Or.inl rfl)

theorem inv_accept {s : Session e n} (h : Inv s) (hphase : s.phase = .idle)
    (hroom : s.connected < n) : Inv { s with connected := s.connected + 1 } where
  connected := hroom
  bounded := by
    show s.phase.Bounded (s.connected + 1)
    rw [hphase]
    trivial
  counts := (pairwise_le_concat h.counts (Nat.le_succ _)).sublist
    ((List.sublist_append_left _ _).append (.refl _))
  written := h.written
  clients i := (h.clients i).frame rfl rfl rfl rfl rfl rfl rfl rfl (fun _ hq => hq) (Or.inl rfl)

theorem inv_sendRequest {s : Session e n} (h : Inv s) {event : ServerEvent} {j : Fin n}
    {handled : Bool} (hphase : s.phase = .broadcast event j handled)
    (hconnected : j.val < s.connected) :
    Inv { s with
      phase := .waiting event j handled .empty none
      inbox := Function.update s.inbox j (s.inbox j ++ [event.request e.platform]) } where
  connected := h.connected
  bounded := by
    have hbounded := h.bounded
    rw [hphase] at hbounded
    exact ⟨hconnected, hbounded.2⟩
  counts := h.counts
  written := h.written
  clients i := by
    by_cases hij : i = j
    · subst hij
      have hclient := h.clients i
      have hquiet := hclient.quiet (by rw [hphase]; rfl)
      have htold := hclient.told
      obtain ⟨queue, hq, heq⟩ := hclient.conserved
      rw [hphase] at hq htold
      have hnil : queue = [] := hq
      subst hnil
      refine .of_parts (Function.update_self ..) rfl rfl (o := s.outbox i) (c := s.channel i)
        hclient.idle ?_ ?_ ?_ ?_ (q := []) ?_ heq
      · rw [← List.append_assoc]
        refine (congrArg (· ++ [event.request e.platform]) htold).trans ?_
        simp [SessionPhase.told]
      · -- the request itself is under way, and nothing else
        have hzero := hclient.outstanding
        rw [hphase, underWay, SessionPhase.awaits] at hzero
        rw [SessionPhase.awaits, if_pos rfl, List.length_append, List.length_singleton]
        omega
      · intro request hmem
        rw [hquiet.1, List.nil_append, List.mem_singleton] at hmem
        exact ⟨event, rfl, hmem⟩
      · exact fun message hmem hcommand => absurd hcommand (hquiet.2 message hmem)
      · rw [SessionPhase.Queue, if_pos rfl]
        exact NodeHeap.isQueue_nil _
    · have hne : i.val ≠ j.val := fun heq => hij (Fin.ext heq)
      refine (h.clients i).frame (Function.update_of_ne hij _ _) rfl rfl rfl rfl rfl ?_ ?_ ?_ ?_
      · rw [hphase]
        simp only [SessionPhase.told, show i.val ≤ j.val ↔ i.val < j.val by omega]
      · rw [hphase]
        exact if_neg hij
      · rw [hphase]
        intro queue hq
        rw [SessionPhase.Queue, if_neg hij]
        exact hq
      · rw [hphase]
        exact Or.inl rfl

theorem inv_queueMessage {s : Session e n} (h : Inv s) {event : ServerEvent} {j : Fin n}
    {handled : Bool} {heap heap' : NodeHeap FepControlMessage} {messages messages' : Option Nat}
    {message : FepControlMessage} {rest : List FepControlMessage}
    (hphase : s.phase = .waiting event j handled heap messages)
    (hchannel : s.channel j = message :: rest) (hcommand : message.command ≠ .response)
    (happend : appendControlMessage heap messages message = .ok (heap', messages')) :
    Inv { s with
      phase := .waiting event j handled heap' messages'
      channel := Function.update s.channel j rest } where
  connected := h.connected
  bounded := by
    have hbounded := h.bounded
    rw [hphase] at hbounded
    exact hbounded
  counts := h.counts
  written := h.written
  clients i := by
    by_cases hij : i = j
    · subst hij
      obtain ⟨hidle, htold, hunderWay, hrequests, hresponses, queue, hq, heq⟩ := h.clients i
      rw [hphase] at htold hunderWay hrequests hresponses hq
      rw [SessionPhase.Queue, if_pos rfl] at hq
      rw [hchannel] at hresponses heq
      -- the message goes from the socket to the end of the queue
      obtain ⟨heap₁, messages₁, happend₁, hq₁⟩ := fepListAppend_isQueue hq message
      obtain ⟨rfl, rfl⟩ := Prod.mk.inj (Except.ok.inj (happend₁.symm.trans happend))
      refine .of_parts rfl rfl (Function.update_self ..) hidle htold ?_ hrequests
        (fun m hm => hresponses m (List.mem_cons_of_mem _ hm)) (q := queue ++ [message]) ?_ ?_
      · rw [underWay, hchannel, responsesIn_cons, if_neg hcommand] at hunderWay
        exact hunderWay
      · rw [SessionPhase.Queue, if_pos rfl]
        exact hq₁
      · refine Eq.trans ?_ heq
        rw [requestsIn_cons_of_ne hcommand]
        simp
    · refine (h.clients i).frame rfl rfl rfl rfl (Function.update_of_ne hij _ _) rfl ?_ ?_ ?_ ?_
      · rw [hphase]
        rfl
      · rw [hphase]
        rfl
      · rw [hphase]
        intro queue hq
        rw [SessionPhase.Queue, if_neg hij] at hq ⊢
        exact hq
      · rw [hphase]
        exact Or.inl rfl

theorem inv_takeResponse {s : Session e n} (h : Inv s) {event : ServerEvent} {j : Fin n}
    {handled : Bool} {heap heap' : NodeHeap FepControlMessage} {messages : Option Nat}
    {message : FepControlMessage} {rest : List FepControlMessage} {retval : Int}
    {fep' : Fep e.locale} {acts' : List (ServerAct (Fin n))}
    (hphase : s.phase = .waiting event j handled heap messages)
    (hchannel : s.channel j = message :: rest) (hcommand : message.command = .response)
    (hcheck : checkResponse e.platform (event.request e.platform) message = .ok retval)
    (hflush : flushMessages (dispatchOf j) heap messages (s.fep, s.acts) =
      .ok (heap', fep', acts')) :
    Inv { s with
      phase := .broadcast event (j + 1) (handled || decide (retval = 0))
      fep := fep'
      acts := acts'
      channel := Function.update s.channel j rest } := by
  -- the queue of client `j` is dispatched
  obtain ⟨hidle, htold, hunderWay, hrequests, hresponses, queue, hq, heq⟩ := h.clients j
  have hbounded := h.bounded
  rw [hphase] at htold hunderWay hrequests hresponses hq hbounded
  rw [SessionPhase.Queue, if_pos rfl] at hq
  rw [hchannel] at hresponses heq
  obtain rfl : acts' = s.acts ++ queue.map (.dispatch j) :=
    foldlM_dispatchOf_ok (flushMessages_ok hq hflush)
  -- the response is the one to the request, so it is accepted
  have haccept : retval = 0 := by
    obtain ⟨event', hevent', hanswers⟩ := hresponses message List.mem_cons_self hcommand
    obtain rfl : event = event' := Option.some.inj hevent'
    rw [checkResponse_of_answers e.platform hanswers] at hcheck
    exact (Except.ok.inj hcheck).symm
  refine ⟨h.connected, ⟨hbounded.1, by simp [haccept]⟩, h.counts, ?_, ?_⟩
  · show keysWritten (s.acts ++ queue.map (.dispatch j)) = _
    rw [keysWritten_append, keysWritten_dispatches, List.append_nil]
    exact h.written
  intro i
  by_cases hij : i = j
  · subst hij
    refine .of_parts rfl rfl (Function.update_self ..) (b := s.inbox i) (o := s.outbox i) hidle ?_ ?_
      hrequests (fun m hm => hresponses m (List.mem_cons_of_mem _ hm)) (q := []) rfl ?_
    · refine htold.trans ?_
      simp [SessionPhase.told]
    · rw [underWay, hchannel, responsesIn_cons, if_pos hcommand, SessionPhase.awaits,
        if_pos rfl] at hunderWay
      rw [SessionPhase.awaits]
      omega
    · refine Eq.trans ?_ heq
      rw [dispatchedFrom_append, dispatchedFrom_dispatches_self,
        requestsIn_cons_of_response hcommand, List.append_nil]
  · have hne : i.val ≠ j.val := fun heq => hij (Fin.ext heq)
    refine (h.clients i).frame rfl rfl rfl rfl (Function.update_of_ne hij _ _) ?_ ?_ ?_ ?_ ?_
    · rw [dispatchedFrom_append, dispatchedFrom_dispatches_ne hij, List.append_nil]
    · rw [hphase]
      simp only [SessionPhase.told, Nat.lt_succ_iff]
    · rw [hphase, SessionPhase.awaits, SessionPhase.awaits, if_neg hij]
    · rw [hphase]
      intro queue hq
      rw [SessionPhase.Queue, if_neg hij] at hq
      exact hq
    · rw [hphase]
      exact Or.inl rfl

theorem inv_finish {s : Session e n} (h : Inv s) {event : ServerEvent} {handled : Bool}
    (hphase : s.phase = .broadcast event s.connected handled) :
    Inv { s with
      past := s.past ++ [(event, s.connected)]
      phase := .idle
      acts := s.acts ++ if handled then [] else event.key?.toList.map .writeKey } := by
  have hbounded := h.bounded
  rw [hphase] at hbounded
  refine ⟨h.connected, trivial, ?_, ?_, ?_⟩
  · show ((s.past ++ [(event, s.connected)]).map (·.2) ++ [s.connected]).Pairwise (· ≤ ·)
    rw [List.map_append]
    exact pairwise_le_concat h.counts (Nat.le_refl _)
  · -- the event is marked as handled exactly if there was somebody to send it to
    show keysWritten _ = ((s.past ++ [(event, s.connected)]).filter _).filterMap _
    rw [keysWritten_append, h.written, List.filter_append, List.filterMap_append, hbounded.2]
    by_cases hzero : s.connected = 0
    · cases hkey : event.key? <;> simp [hzero, hkey, keysWritten]
    · simp [hzero, Nat.pos_of_ne_zero hzero, keysWritten]
  · intro i
    refine (h.clients i).frame rfl rfl rfl rfl rfl ?_ ?_ ?_ ?_ ?_
    · rw [dispatchedFrom_append]
      cases handled with
      | true => simp [dispatchedFrom]
      | false => simp [dispatchedFrom_writeKeys]
    · rw [hphase, concerning_append, concerning_singleton]
      by_cases hlt : i.val < s.connected <;> simp [SessionPhase.told, hlt]
    · rw [hphase]
      rfl
    · rw [hphase]
      exact fun queue hq => hq
    · rw [hphase]
      exact Or.inr rfl

theorem inv_readMessage {s : Session e n} (h : Inv s) {j : Fin n} {message : FepControlMessage}
    {rest : List FepControlMessage} {fep' : Fep e.locale} {acts' : List (ServerAct (Fin n))}
    (hphase : s.phase = .idle) (hchannel : s.channel j = message :: rest)
    (hhandle : dispatchOf j (s.fep, s.acts) message = .ok (fep', acts')) :
    Inv { s with
      fep := fep'
      acts := acts'
      channel := Function.update s.channel j rest } := by
  obtain rfl : acts' = s.acts ++ [.dispatch j message] := dispatchOf_ok hhandle
  refine ⟨h.connected, h.bounded, h.counts, ?_, ?_⟩
  · show keysWritten (s.acts ++ [message].map (.dispatch j)) = _
    rw [keysWritten_append, keysWritten_dispatches, List.append_nil]
    exact h.written
  intro i
  by_cases hij : i = j
  · subst hij
    have hclient := h.clients i
    -- no response is under way to an idle server
    have hquiet := (hclient.quiet (by rw [hphase]; rfl)).2
    obtain ⟨hidle, htold, hunderWay, hrequests, hresponses, queue, hq, heq⟩ := hclient
    have hnil : queue = [] := by
      rw [hphase] at hq
      exact hq
    subst hnil
    rw [hchannel] at hquiet hresponses heq
    have hcommand : message.command ≠ .response := hquiet message List.mem_cons_self
    refine .of_parts rfl rfl (Function.update_self ..) hidle htold ?_ hrequests
      (fun m hm => hresponses m (List.mem_cons_of_mem _ hm)) hq ?_
    · rw [underWay, hchannel, responsesIn_cons, if_neg hcommand] at hunderWay
      exact hunderWay
    · refine Eq.trans ?_ heq
      show dispatchedFrom i (s.acts ++ [message].map (.dispatch i)) ++ _ ++ _ ++ _ = _
      rw [dispatchedFrom_append, dispatchedFrom_dispatches_self, requestsIn_cons_of_ne hcommand]
      simp
  · refine (h.clients i).frame rfl rfl rfl rfl (Function.update_of_ne hij _ _) ?_ rfl rfl
      (fun _ hq => hq) (Or.inl rfl)
    show dispatchedFrom i (s.acts ++ [message].map (.dispatch j)) = _
    rw [dispatchedFrom_append, dispatchedFrom_dispatches_ne hij, List.append_nil]

/-! ## What a client does -/

theorem answers_of_mem_expectedMessages (p : Platform) (filter : Option FepEventFilter)
    (request : FepControlMessage) : ∀ message ∈ expectedMessages p filter request,
      message.command = .response → Answers request message := by
  intro message hmem hcommand
  rcases List.mem_cons.mp hmem with rfl | hmem
  · rfl
  · exact absurd hcommand (command_ne_response_of_mem p filter request message hmem)

theorem responsesIn_eq_zero {messages : List FepControlMessage}
    (h : ∀ message ∈ messages, message.command ≠ .response) : responsesIn messages = 0 :=
  List.countP_eq_zero.mpr fun message hmem => by simpa using h message hmem

/-- A dispatch writes one response. -/
theorem responsesIn_expectedMessages (p : Platform) (filter : Option FepEventFilter)
    (request : FepControlMessage) : responsesIn (expectedMessages p filter request) = 1 := by
  rw [expectedMessages, responsesIn_cons,
    responsesIn_eq_zero (command_ne_response_of_mem p filter request)]
  rfl

/-- What a dispatch writes, and that it can be run. -/
theorem ClientInv.dispatch {s : Session e n} {i : Fin n} (h : ClientInv s i)
    {request : FepControlMessage} (hmem : request ∈ s.inbox i) (filter : Option FepEventFilter) :
    ∃ client', dispatchRequest e.platform filter (s.client i) request = .ok (0, client') ∧ Idle client' ∧
      client'.written.drop (s.client i).written.length = expectedMessages e.platform filter request := by
  obtain ⟨event, -, rfl⟩ := h.requests request hmem
  obtain ⟨client', hrun, hidle, hwrote⟩ :=
    dispatchRequest_spec e.platform filter h.idle (validRequest_request e.platform event)
  refine ⟨client', hrun, hidle, ?_⟩
  rw [hwrote.written, List.drop_left]

theorem inv_dispatch {s : Session e n} (h : Inv s) {j : Fin n} {filter : Option FepEventFilter}
    {request : FepControlMessage} {rest : List FepControlMessage} {retval : Int}
    {client' : FepClient} (hinbox : s.inbox j = request :: rest) (houtbox : s.outbox j = [])
    (hrun : dispatchRequest e.platform filter (s.client j) request = .ok (retval, client')) :
    Inv { s with
      inbox := Function.update s.inbox j rest
      client := Function.update s.client j client'
      done := Function.update s.done j (s.done j ++ [.answered filter request])
      outbox := Function.update s.outbox j
        (client'.written.drop (s.client j).written.length) } where
  connected := h.connected
  bounded := h.bounded
  counts := h.counts
  written := h.written
  clients i := by
    by_cases hij : i = j
    · subst hij
      have hclient := h.clients i
      have hmem : request ∈ s.inbox i := hinbox ▸ List.mem_cons_self
      obtain ⟨client₁, hrun₁, hidle₁, hnew⟩ := hclient.dispatch hmem filter
      obtain ⟨-, rfl⟩ := Prod.mk.inj (Except.ok.inj (hrun₁.symm.trans hrun))
      obtain ⟨hidle, htold, hunderWay, hrequests, hresponses, queue, hq, heq⟩ := hclient
      rw [hinbox] at htold hrequests
      rw [houtbox] at hresponses heq
      refine .of_parts (Function.update_self ..) ((Function.update_self ..).trans hnew) rfl ?_ ?_ ?_
        (fun r hr => hrequests r (List.mem_cons_of_mem _ hr)) ?_ hq ?_
      · show Idle (Function.update s.client i client₁ i)
        rw [Function.update_self]
        exact hidle₁
      · refine Eq.trans ?_ htold
        simp [seen, ClientAct.request?]
      · rw [underWay, hinbox, houtbox, List.length_cons] at hunderWay
        rw [responsesIn_expectedMessages]
        exact (Nat.add_right_cancel_iff.mpr (by simp [responsesIn])).trans hunderWay
      · intro m hm hcommand
        rcases List.mem_append.mp hm with hm | hm
        · exact hresponses m (List.mem_append_left _ hm) hcommand
        · obtain ⟨event, hevent, heq⟩ := hrequests request List.mem_cons_self
          refine ⟨event, hevent, ?_⟩
          rw [← heq]
          exact answers_of_mem_expectedMessages e.platform filter request m hm hcommand
      · rw [requestsIn_nil, List.append_nil] at heq
        rw [heq, requestsIn_expectedMessages]
        simp [wanted]
    · exact (h.clients i).frame (Function.update_of_ne hij _ _) (Function.update_of_ne hij _ _)
        (Function.update_of_ne hij _ _) (Function.update_of_ne hij _ _) rfl rfl rfl rfl
        (fun _ hq => hq) (Or.inl rfl)

/-- A request outside a filter is written at once. -/
theorem performRequest_idle {p : Platform} {client : FepClient} (h : Idle client)
    (r : ClientRequest) : performRequest p client r = .ok (client.write p (r.message p)) := by
  rw [performRequest_eq, clientRequest_idle p h.stopped]

theorem inv_ask {s : Session e n} (h : Inv s) {j : Fin n} {r : ClientRequest}
    {client' : FepClient} (houtbox : s.outbox j = [])
    (hrun : performRequest e.platform (s.client j) r = .ok client') :
    Inv { s with
      client := Function.update s.client j client'
      done := Function.update s.done j (s.done j ++ [.asked r])
      outbox := Function.update s.outbox j
        (client'.written.drop (s.client j).written.length) } where
  connected := h.connected
  bounded := h.bounded
  counts := h.counts
  written := h.written
  clients i := by
    by_cases hij : i = j
    · subst hij
      obtain ⟨hidle, htold, hunderWay, hrequests, hresponses, queue, hq, heq⟩ := h.clients i
      rw [performRequest_idle hidle] at hrun
      obtain rfl := Except.ok.inj hrun
      have hnew : ((s.client i).write e.platform (r.message e.platform)).written.drop
          (s.client i).written.length = [r.message e.platform] := List.drop_left
      have hcommand := command_message_ne_response e.platform r
      rw [houtbox] at hresponses heq
      refine .of_parts rfl ((Function.update_self ..).trans hnew) rfl ?_ ?_ ?_ hrequests ?_ hq ?_
      · show Idle (Function.update s.client i ((s.client i).write e.platform (r.message e.platform)) i)
        rw [Function.update_self]
        exact ⟨hidle.stopped, hidle.empty⟩
      · refine Eq.trans ?_ htold
        simp [seen, ClientAct.request?]
      · rw [underWay, houtbox] at hunderWay
        rw [responsesIn_cons, if_neg hcommand]
        exact hunderWay
      · intro m hm hresponse
        rcases List.mem_append.mp hm with hm | hm
        · exact hresponses m (List.mem_append_left _ hm) hresponse
        · exact absurd hresponse (List.mem_singleton.mp hm ▸ hcommand)
      · rw [requestsIn_nil, List.append_nil] at heq
        rw [heq, requestsIn_cons_of_ne hcommand]
        simp [wanted, ClientAct.messages]
    · exact (h.clients i).frame rfl (Function.update_of_ne hij _ _) (Function.update_of_ne hij _ _)
        (Function.update_of_ne hij _ _) rfl rfl rfl rfl (fun _ hq => hq) (Or.inl rfl)

theorem inv_deliver {s : Session e n} (h : Inv s) {j : Fin n} {message : FepControlMessage}
    {rest : List FepControlMessage} (houtbox : s.outbox j = message :: rest) :
    Inv { s with
      outbox := Function.update s.outbox j rest
      channel := Function.update s.channel j (s.channel j ++ [message]) } where
  connected := h.connected
  bounded := h.bounded
  counts := h.counts
  written := h.written
  clients i := by
    by_cases hij : i = j
    · subst hij
      obtain ⟨hidle, htold, hunderWay, hrequests, hresponses, queue, hq, heq⟩ := h.clients i
      have hsplit : s.outbox i = [message] ++ rest := houtbox
      rw [hsplit] at hresponses heq
      refine .of_parts rfl (Function.update_self ..) (Function.update_self ..) (b := s.inbox i) hidle
        htold ?_ hrequests (fun m hm => hresponses m (by simpa using hm)) hq ?_
      · rw [underWay, hsplit, responsesIn_append] at hunderWay
        rw [responsesIn_append, ← hunderWay]
        omega
      · refine Eq.trans ?_ heq
        simp only [requestsIn_append, List.append_assoc]
    · exact (h.clients i).frame rfl rfl rfl (Function.update_of_ne hij _ _)
        (Function.update_of_ne hij _ _) rfl rfl rfl (fun _ hq => hq) (Or.inl rfl)

/-! ## Runs -/

theorem move_inv {s s' : Session e n} (h : Inv s) (hmove : Move s s') : Inv s' := by
  cases hmove with
  | sendRequest hphase hconnected => exact inv_sendRequest h hphase hconnected
  | queueMessage hphase hchannel hread hcommand happend =>
    exact inv_queueMessage h hphase hchannel hcommand happend
  | takeResponse hphase hchannel hread hcommand hcheck hflush =>
    exact inv_takeResponse h hphase hchannel hcommand hcheck hflush
  | finish hphase => exact inv_finish h hphase
  | readMessage hphase hconnected hchannel hread hhandle =>
    exact inv_readMessage h hphase hchannel hhandle
  | dispatch hinbox houtbox hread hservable hrun => exact inv_dispatch h hinbox houtbox hrun
  | deliver houtbox => exact inv_deliver h houtbox

theorem step_inv {s s' : Session e n} (h : Inv s) (hstep : Step s s') : Inv s' := by
  rcases hstep with harrival | hmove
  · cases harrival with
    | event event hphase hread hshown => exact inv_event h event hphase _
    | childOutput hphase hlen hrun => exact inv_childOutput h _
    | accept hphase hroom htable => exact inv_accept h hphase hroom
    | ask r hservable houtbox hrun => exact inv_ask h houtbox hrun
  · exact move_inv h hmove

theorem inv_of_reachable {s : Session e n} (h : Reachable s) : Inv s :=
  h.induction (fun fep _ => inv_start fep n) fun _ _ _ ih hstep => step_inv ih hstep

theorem reachable_start (e : Setting) (n : Nat) : ∃ fep : Fep e.locale, Reachable (start fep n) := by
  obtain ⟨fep, hfep⟩ := exists_screenStart e.locale
  exact ⟨fep, fep, hfep, .refl⟩

/-- The key `a` can be read on a little-endian machine. -/
theorem readable_keyA {p : Platform} (hp : p.wordsBigEndian = false) :
    Readable p [(ServerEvent.key keyA.toKey).request p] := by
  apply readable_of_short hp
  refine List.forall_mem_singleton.mpr ?_
  simp [ServerEvent.request, keyRequest, keyA]

/-- Two clients have been connected, and the key `a` has been read. -/
theorem reachable_two_clients (hp : e.platform.wordsBigEndian = false) :
    ∃ fep : Fep e.locale, Reachable
      { start fep 2 with connected := 2, phase := .broadcast (.key keyA.toKey) 0 false } := by
  obtain ⟨fep, hstart⟩ := reachable_start e 2
  have hone := hstart.arrival (.accept rfl Nat.zero_lt_two (show 0 < fepMaxClients by decide))
  have htwo := hone.arrival (.accept rfl Nat.one_lt_two (show 1 < fepMaxClients by decide))
  exact ⟨fep, htwo.arrival (.event (.key keyA.toKey) rfl (readable_keyA hp) rfl)⟩

/-- The first of the two has been sent the key, and has dispatched it. -/
theorem reachable_dispatched (hp : e.platform.wordsBigEndian = false) :
    ∃ s : Session e 2, Reachable s ∧ s.seen 0 = [keyRequest e.platform keyA.toKey] ∧
      s.seen 1 = [] ∧ s.connected = 2 := by
  obtain ⟨fep, htwo⟩ := reachable_two_clients hp
  have hsent := htwo.move (.sendRequest (j := 0) rfl (by simp))
  obtain ⟨client', hrun, -⟩ := dispatchRequest_spec e.platform none (idle_new [])
    (validRequest_keyRequest e.platform keyA.toKey)
  exact ⟨_, hsent.move (.dispatch (i := 0) rfl rfl (readable_keyA hp)
    (fun _ h => absurd h List.not_mem_nil) hrun), rfl, rfl, rfl⟩

/-! ## What a client has seen -/

/-- The events a client was connected for are all those since it has been connected. -/
theorem concerning_eq_drop {events : List (ServerEvent × Nat)} (i : Fin n)
    (h : (events.map (·.2)).Pairwise (· ≤ ·)) :
    concerning i events =
      (events.drop (events.takeWhile (·.2 ≤ i.val)).length).map (·.1) := by
  induction events with
  | nil => rfl
  | cons e events ih =>
    obtain ⟨hle, hrest⟩ := List.pairwise_cons.mp h
    by_cases hlt : i.val < e.2
    -- from the first event on that the client gets, it gets all
    · have hall : ∀ e' ∈ e :: events, decide (i.val < e'.2) = true := by
        intro e' hmem
        rcases List.mem_cons.mp hmem with rfl | hmem
        · exact decide_eq_true hlt
        · exact decide_eq_true (Nat.lt_of_lt_of_le hlt (hle _ (List.mem_map_of_mem hmem)))
      rw [concerning, List.filter_eq_self.mpr hall,
        List.takeWhile_cons_of_neg (by simpa using hlt)]
      rfl
    · rw [List.takeWhile_cons_of_pos (by simpa using Nat.le_of_not_lt hlt), List.length_cons,
        List.drop_succ_cons, ← ih hrest]
      simp [concerning, hlt]

theorem Inv.concerning_past {s : Session e n} (h : Inv s) (i : Fin n) :
    concerning i s.past = (s.past.drop (s.joined i)).map (·.1) :=
  concerning_eq_drop i (List.pairwise_append.mp h.counts).1

theorem joined_mono (s : Session e n) {i k : Fin n} (hik : i ≤ k) : s.joined i ≤ s.joined k := by
  unfold joined
  induction s.past with
  | nil => exact Nat.le_refl _
  | cons e events ih =>
    by_cases hle : e.2 ≤ i.val
    · rw [List.takeWhile_cons_of_pos (by simpa using hle),
        List.takeWhile_cons_of_pos (by simpa using Nat.le_trans hle hik)]
      exact Nat.succ_le_succ ih
    · rw [List.takeWhile_cons_of_neg (by simpa using hle)]
      exact Nat.zero_le _

/-- A client has a request only while the server waits for it. -/
theorem Inv.inbox_eq_nil {s : Session e n} (h : Inv s) {i : Fin n}
    (hawaits : s.phase.awaits i = 0) : s.inbox i = [] :=
  ((h.clients i).quiet hawaits).1

theorem Inv.seen_eq {s : Session e n} (h : Inv s) (i : Fin n) :
    ∃ now, (now = [] ∨ ∃ event ∈ s.phase.told i, now = [event]) ∧
      s.seen i = (concerning i s.past ++ now).map (ServerEvent.request e.platform) := by
  have htold := (h.clients i).told
  by_cases hinbox : s.inbox i = []
  · rw [hinbox, List.append_nil] at htold
    refine ⟨(s.phase.told i).toList, ?_, htold⟩
    cases htold' : s.phase.told i with
    | none => exact Or.inl rfl
    | some event => exact Or.inr ⟨event, rfl, rfl⟩
  -- the request has not been dispatched yet: it is the one for the event of the server
  · have hawaits : s.phase.awaits i ≠ 0 := fun hzero => hinbox (h.inbox_eq_nil hzero)
    have hone := (h.clients i).outstanding
    cases hphase : s.phase with
    | idle => exact absurd (by rw [hphase]; rfl) hawaits
    | broadcast event j handled => exact absurd (by rw [hphase]; rfl) hawaits
    | waiting event j handled heap messages =>
      rw [hphase, SessionPhase.awaits] at hawaits hone
      have hij : i = j := by
        by_contra hne
        exact hawaits (if_neg hne)
      subst hij
      rw [if_pos rfl, underWay] at hone
      have hpos := List.length_pos_iff.mpr hinbox
      obtain ⟨request, hrequest⟩ : ∃ request, s.inbox i = [request] :=
        List.length_eq_one_iff.mp (by omega)
      rw [hphase, hrequest, SessionPhase.told, if_pos (Nat.le_refl _), List.map_append] at htold
      refine ⟨[], Or.inl rfl, ?_⟩
      rw [List.append_nil]
      exact (List.append_inj' htold rfl).1

/-- **All clients see the same events.** Whatever filters they have, whenever they connect and
whatever is requested in between, each client has dispatched the events since it has been connected,
in the order of the server and each once. What it may have ahead of the events that the server is
done with is the one that the server is busy with, if it has been sent to the client already. -/
theorem seen_eq_since {s : Session e n} (h : Reachable s) (i : Fin n) :
    ∃ now, (now = [] ∨ ∃ event ∈ s.phase.told i, now = [event]) ∧
      s.seen i = ((s.past.drop (s.joined i)).map (·.1) ++ now).map (ServerEvent.request e.platform) := by
  have hinv := inv_of_reachable h
  rw [← hinv.concerning_past i]
  exact hinv.seen_eq i

theorem seen_eq_since_two_clients : ∃ s : Session .default 2, s.seen 0 = [keyRequest .x86_64 keyA.toKey] ∧
    ∃ now, (now = [] ∨ ∃ event ∈ s.phase.told 0, now = [event]) ∧
      s.seen 0 =
        ((s.past.drop (s.joined 0)).map (·.1) ++ now).map (ServerEvent.request .x86_64) := by
  obtain ⟨s, hreach, hseen, -⟩ := reachable_dispatched (e := .default) rfl
  exact ⟨s, hseen, seen_eq_since hreach 0⟩

/-- **Two clients agree.** Between two events, the client that has been connected later has seen the
end of what the other one has seen. -/
theorem seen_append_seen {s : Session e n} (h : Reachable s) (hphase : s.phase = .idle)
    {i k : Fin n} (hik : i ≤ k) : ∃ before, s.seen i = before ++ s.seen k := by
  have hseen : ∀ i, s.seen i =
      ((s.past.drop (s.joined i)).map (·.1)).map (ServerEvent.request e.platform) := by
    intro i
    obtain ⟨now, hnow, hseen⟩ := seen_eq_since h i
    rcases hnow with rfl | ⟨event, hevent, -⟩
    · rw [hseen, List.append_nil]
    · rw [hphase] at hevent
      exact absurd hevent (by simp [SessionPhase.told])
  obtain ⟨d, hd⟩ := Nat.exists_eq_add_of_le (joined_mono s hik)
  have hsplit : s.past.drop (s.joined i) = (s.past.drop (s.joined i)).take d ++
      s.past.drop (s.joined k) := by
    rw [hd, ← List.drop_drop, List.take_append_drop]
  rw [hseen i, hseen k, hsplit, List.map_append, List.map_append]
  exact ⟨_, rfl⟩

/-! ## What the server has done -/

theorem not_response_of_mem_wanted {s : Session e n} {i : Fin n} :
    ∀ message ∈ s.wanted i, message.command ≠ .response := by
  intro message hmem
  obtain ⟨act, -, hact⟩ := List.mem_flatMap.mp hmem
  cases act with
  | answered filter request =>
    exact command_ne_response_of_mem e.platform filter request message hact
  | asked r => exact List.mem_singleton.mp hact ▸ command_message_ne_response e.platform r

/-- **First in, first out, exactly once.** The server dispatches what the program of a client has
asked for, in its order, each message once and no RESPONSE, whether it has read the message between
two events or while it was waiting for the response to one. -/
theorem dispatched_append {s : Session e n} (h : Reachable s) (i : Fin n) :
    (∃ rest, dispatchedFrom i s.acts ++ rest = s.wanted i) ∧
      ∀ message ∈ dispatchedFrom i s.acts, message.command ≠ .response := by
  obtain ⟨queue, -, heq⟩ := ((inv_of_reachable h).clients i).conserved
  rw [List.append_assoc, List.append_assoc] at heq
  refine ⟨⟨_, heq⟩, fun message hmem => ?_⟩
  exact not_response_of_mem_wanted message (heq ▸ List.mem_append_left _ hmem)

theorem dispatched_append_two_clients : ∃ s : Session .default 2,
    s.seen 0 = [keyRequest .x86_64 keyA.toKey] ∧
      (∃ rest, dispatchedFrom 0 s.acts ++ rest = s.wanted 0) ∧
      ∀ message ∈ dispatchedFrom 0 s.acts, message.command ≠ .response := by
  obtain ⟨s, hreach, hseen, -⟩ := reachable_dispatched (e := .default) rfl
  exact ⟨s, hseen, dispatched_append hreach 0⟩

/-- **Who writes a key.** The server writes a key to the pty itself exactly if no client was connected
when it was read, and these keys in their order. -/
theorem keysWritten_eq {s : Session e n} (h : Reachable s) :
    keysWritten s.acts = (s.past.filter (·.2 = 0)).filterMap (·.1.key?) :=
  (inv_of_reachable h).written

/-- Nobody is connected when the key `a` is read. -/
theorem keysWritten_eq_no_client : ∃ s : Session .default 2, s.past = [(.key keyA.toKey, 0)] ∧
    keysWritten s.acts = (s.past.filter (·.2 = 0)).filterMap (·.1.key?) := by
  obtain ⟨fep, hstart⟩ := reachable_start .default 2
  have hread := hstart.arrival (.event (.key keyA.toKey) rfl (readable_keyA rfl) rfl)
  have hfinished := hread.move (.finish rfl)
  exact ⟨_, rfl, keysWritten_eq hfinished⟩

end Session

end LibFep
