import Mathlib.Algebra.BigOperators.Fin
import Mathlib.Algebra.Order.BigOperators.Group.Finset
import Mathlib.Data.Prod.Lex
import Mathlib.Order.WellFounded
import LibFep.Protocol.Agreement

/-!
# LibFep — a session comes to rest

When nothing more comes from outside, the server and its clients finish what they are at, in whatever
order they take their steps and whatever the filters still request.

* **`Session.exists_move`** — a session that is not at rest can take a step: the server never waits for
  a response that nobody will send.
* **`Session.rank_lt_of_move`** — every step lowers a pair of numbers: the requests that are still to
  be sent or dispatched, then the messages that are still to be handed on. A filter may request as
  much as it likes, so the first number has to count before the second.
* **`Session.comes_to_rest`** — hence every event reaches every client, and every request of a client
  the server.
-/

namespace LibFep

open Lib

variable {n : Nat} {e : Setting}

/-- What the loop over the clients has still to do, two for each client it has not asked yet. -/
def SessionPhase.remaining (connected : Nat) : SessionPhase n → Nat
  | .idle => 0
  | .broadcast _ j _ => 2 * (connected - j) + 1
  | .waiting _ j _ _ _ => 2 * (connected - (j.val + 1)) + 1

namespace Session

/-- The server waits for an event, the clients have nothing to do, and all that the connected ones have
written has arrived. -/
structure AtRest (s : Session e n) : Prop where
  phase : s.phase = .idle
  inbox : ∀ i, s.inbox i = []
  outbox : ∀ i, s.outbox i = []
  channel : ∀ i, i.val < s.connected → s.channel i = []

/-! ## Messages that can be dealt with -/

/-- No party is stopped: what is on the screen can be shown again, and all that is under way can be dealt
with. -/
structure Served (s : Session e n) : Prop where
  showable : Showable s.fep
  current : ∀ event ∈ s.phase.current, Readable e.platform [event.request e.platform]
  channel : ∀ i, ∀ message ∈ s.channel i, Servable e message
  outbox : ∀ i, ∀ message ∈ s.outbox i, Servable e message
  queued : ∀ i, ∃ queue, s.phase.Queue i queue ∧ ∀ message ∈ queue, Harmless e message

theorem served_start {fep : Fep e.locale} (hshowable : Showable fep) (n : Nat) :
    Served (start fep n) where
  showable := hshowable
  current _ h := absurd h (by simp [start, SessionPhase.current])
  channel _ _ h := absurd h List.not_mem_nil
  outbox _ _ h := absurd h List.not_mem_nil
  queued _ := ⟨[], rfl, List.forall_mem_nil _⟩

theorem exists_dispatchOf (j : Fin n) (done : Fep e.locale × List (ServerAct (Fin n)))
    (hs : Showable done.1) {message : FepControlMessage} (h : Harmless e message) :
    ∃ done', dispatchOf j done message = .ok done' ∧ Showable done'.1 := by
  obtain ⟨fep', hrun, hshowable⟩ := exists_runHandler hs h
  exact ⟨_, bind_eq_ok.mpr ⟨_, hrun, rfl⟩, hshowable⟩

theorem exists_foldlM_dispatchOf (j : Fin n) (done : Fep e.locale × List (ServerAct (Fin n)))
    (hs : Showable done.1) {messages : List FepControlMessage}
    (h : ∀ message ∈ messages, Harmless e message) :
    ∃ done', messages.foldlM (dispatchOf j) done = .ok done' ∧ Showable done'.1 :=
  exists_foldlM_ok (P := fun done => Showable done.1)
    (fun done hs message hmem => exists_dispatchOf j done hs (h message hmem)) hs

/-- What has been queued for the client that is waited for. -/
theorem Served.queue {s : Session e n} (h : Served s) {event : ServerEvent} {j : Fin n}
    {handled : Bool} {heap : NodeHeap FepControlMessage} {messages : Option Nat}
    (hphase : s.phase = .waiting event j handled heap messages) :
    ∃ queue, NodeHeap.IsQueue heap messages queue ∧ ∀ message ∈ queue, Harmless e message := by
  obtain ⟨queue, hq, hharmless⟩ := h.queued j
  rw [hphase, SessionPhase.Queue, if_pos rfl] at hq
  exact ⟨queue, hq, hharmless⟩

/-- Nothing has been queued for the others. -/
theorem queued_of_waiting {event : ServerEvent} {j : Fin n} {handled : Bool}
    {heap : NodeHeap FepControlMessage} {messages : Option Nat} {queue : List FepControlMessage}
    (hq : NodeHeap.IsQueue heap messages queue) (hharmless : ∀ message ∈ queue, Harmless e message)
    (i : Fin n) : ∃ queue, (SessionPhase.waiting event j handled heap messages).Queue i queue ∧
      ∀ message ∈ queue, Harmless e message := by
  by_cases hij : i = j
  · exact ⟨queue, by rwa [SessionPhase.Queue, if_pos hij], hharmless⟩
  · exact ⟨[], by rw [SessionPhase.Queue, if_neg hij], List.forall_mem_nil _⟩

theorem queued_of_not_waiting : ∀ _ : Fin n, ∃ queue : List FepControlMessage,
    queue = [] ∧ ∀ message ∈ queue, Harmless e message := fun _ => ⟨[], rfl, List.forall_mem_nil _⟩

/-- A request on its way to a client can be read there. -/
theorem Served.readable {s : Session e n} (h : Served s) (hinv : Inv s) {i : Fin n}
    {request : FepControlMessage} (hmem : request ∈ s.inbox i) : Readable e.platform [request] := by
  obtain ⟨event, hevent, rfl⟩ := (hinv.clients i).requests request hmem
  exact h.current event hevent

theorem move_served {s s' : Session e n} (hinv : Inv s) (h : Served s) (hmove : Move s s') :
    Served s' := by
  cases hmove with
  | @sendRequest event j handled hphase hconnected =>
    have hcurrent := h.current
    rw [hphase] at hcurrent
    exact ⟨h.showable, hcurrent, h.channel, h.outbox,
      queued_of_waiting (NodeHeap.isQueue_nil _) (List.forall_mem_nil _)⟩
  | @queueMessage event j handled heap heap' messages messages' message rest hphase hchannel hread
      hcommand happend =>
    have hcurrent := h.current
    rw [hphase] at hcurrent
    obtain ⟨hmessage, hrest⟩ := List.forall_mem_cons.mp (hchannel ▸ h.channel j)
    obtain ⟨queue, hq, hharmless⟩ := h.queue hphase
    obtain ⟨heap₁, messages₁, happend₁, hq₁⟩ := fepListAppend_isQueue hq message
    obtain ⟨rfl, rfl⟩ := Prod.mk.inj (Except.ok.inj (happend₁.symm.trans happend))
    refine ⟨h.showable, hcurrent, forall_mem_update hrest h.channel, h.outbox,
      queued_of_waiting hq₁ ?_⟩
    exact List.forall_mem_append.mpr ⟨hharmless, List.forall_mem_singleton.mpr hmessage.2⟩
  | @takeResponse event j handled heap heap' messages message rest retval fep' acts' hphase hchannel
      hread hcommand hcheck hflush =>
    have hcurrent := h.current
    rw [hphase] at hcurrent
    obtain ⟨-, hrest⟩ := List.forall_mem_cons.mp (hchannel ▸ h.channel j)
    obtain ⟨queue, hq, hharmless⟩ := h.queue hphase
    obtain ⟨done, hfold, hshowable⟩ :=
      exists_foldlM_dispatchOf j (s.fep, s.acts) h.showable hharmless
    obtain rfl := Except.ok.inj (hfold.symm.trans (flushMessages_ok hq hflush))
    exact ⟨hshowable, hcurrent, forall_mem_update hrest h.channel, h.outbox, queued_of_not_waiting⟩
  | finish hphase =>
    exact ⟨h.showable, by simp [SessionPhase.current], h.channel, h.outbox, queued_of_not_waiting⟩
  | @readMessage j message rest fep' acts' hphase hconnected hchannel hread hhandle =>
    obtain ⟨hmessage, hrest⟩ := List.forall_mem_cons.mp (hchannel ▸ h.channel j)
    obtain ⟨done, hok, hshowable⟩ := exists_dispatchOf j (s.fep, s.acts) h.showable hmessage.2
    obtain rfl := Except.ok.inj (hok.symm.trans hhandle)
    exact ⟨hshowable, h.current, forall_mem_update hrest h.channel, h.outbox, h.queued⟩
  | @dispatch j filter request rest retval client' hinbox houtbox hread hservable hrun =>
    have hmem : request ∈ s.inbox j := hinbox ▸ List.mem_cons_self
    obtain ⟨event, -, hevent⟩ := (hinv.clients j).requests request hmem
    obtain ⟨client₁, hrun₁, -, hnew⟩ := (hinv.clients j).dispatch hmem filter
    obtain ⟨-, rfl⟩ := Prod.mk.inj (Except.ok.inj (hrun₁.symm.trans hrun))
    refine ⟨h.showable, h.current, h.channel, forall_mem_update ?_ h.outbox, h.queued⟩
    rw [hnew]
    exact servable_of_mem_expectedMessages (hevent ▸ validRequest_request e.platform event) hread
      hservable
  | @deliver j message rest houtbox =>
    obtain ⟨hmessage, hrest⟩ := List.forall_mem_cons.mp (houtbox ▸ h.outbox j)
    refine ⟨h.showable, h.current, forall_mem_update ?_ h.channel, forall_mem_update hrest h.outbox,
      h.queued⟩
    exact List.forall_mem_append.mpr ⟨h.channel j, List.forall_mem_singleton.mpr hmessage⟩

theorem Served.event {s : Session e n} (h : Served s) {event : ServerEvent} {fep' : Fep e.locale}
    (hread : Readable e.platform [event.request e.platform]) (hshown : event.Shows s.fep fep') :
    Served { s with phase := .broadcast event 0 false, fep := fep' } where
  showable := by
    cases event with
    | key k => exact hshown ▸ h.showable
    | resize size =>
      obtain ⟨-, reported, hrun⟩ := hshown
      exact h.showable.winch hrun
  current event' hevent := Option.some.inj hevent ▸ hread
  channel := h.channel
  outbox := h.outbox
  queued := queued_of_not_waiting

theorem arrival_served {s s' : Session e n} (hinv : Inv s) (h : Served s) (harrival : Arrival s s') :
    Served s' := by
  cases harrival with
  | event event hphase hread hshown => exact h.event hread hshown
  | childOutput hphase hlen hrun =>
    exact ⟨h.showable.childOutput hlen hrun, h.current, h.channel, h.outbox, h.queued⟩
  | accept hphase hroom htable => exact ⟨h.showable, h.current, h.channel, h.outbox, h.queued⟩
  | @ask j r client' hservable houtbox hrun =>
    rw [performRequest_idle (hinv.clients j).idle] at hrun
    obtain rfl := Except.ok.inj hrun
    refine ⟨h.showable, h.current, h.channel, forall_mem_update ?_ h.outbox, h.queued⟩
    rw [show ((s.client j).write e.platform (r.message e.platform)).written.drop
      (s.client j).written.length = [r.message e.platform] from List.drop_left]
    exact List.forall_mem_singleton.mpr hservable

theorem served_of_reachable {s : Session e n} (h : Reachable s) : Served s := by
  refine h.induction (fun fep hfep => served_start (showable_of_screenStart hfep) n) ?_
  intro s s' hreach ih hstep
  have hinv := inv_of_reachable hreach
  exact hstep.elim (arrival_served hinv ih) (move_served hinv ih)

/-! ## A step can be taken -/

theorem exists_move_client {s : Session e n} (h : Inv s) (hserved : Served s) {i : Fin n}
    (hwork : s.inbox i ≠ [] ∨ s.outbox i ≠ []) : ∃ s', Move s s' := by
  by_cases houtbox : s.outbox i = []
  · rcases hwork with hinbox | hne
    · obtain ⟨request, rest, hcons⟩ := List.exists_cons_of_ne_nil hinbox
      have hmem : request ∈ s.inbox i := hcons ▸ List.mem_cons_self
      obtain ⟨client', hrun, -, -⟩ := (h.clients i).dispatch hmem none
      exact ⟨_, .dispatch hcons houtbox (hserved.readable h hmem)
        (fun _ hmem => absurd hmem List.not_mem_nil) hrun⟩
    · exact absurd houtbox hne
  · obtain ⟨message, rest, hcons⟩ := List.exists_cons_of_ne_nil houtbox
    exact ⟨_, .deliver hcons⟩

/-- While it waits, the server takes any message from the client it waits for. -/
theorem exists_move_receive {s : Session e n} (h : Inv s) (hserved : Served s) {event : ServerEvent}
    {j : Fin n} {handled : Bool} {heap : NodeHeap FepControlMessage} {messages : Option Nat}
    (hphase : s.phase = .waiting event j handled heap messages) (hchannel : s.channel j ≠ []) :
    ∃ s', Move s s' := by
  have hresponses := (h.clients j).responses
  rw [hphase] at hresponses
  obtain ⟨queue, hq, hharmless⟩ := hserved.queue hphase
  obtain ⟨message, rest, hcons⟩ := List.exists_cons_of_ne_nil hchannel
  have hread := (hserved.channel j message (hcons ▸ List.mem_cons_self)).1
  by_cases hcommand : message.command = .response
  · obtain ⟨heap', hflush⟩ := flushMessages_of_isQueue (dispatchOf j) hq (s.fep, s.acts)
    obtain ⟨done, hfold, -⟩ := exists_foldlM_dispatchOf j (s.fep, s.acts) hserved.showable hharmless
    rw [hfold] at hflush
    obtain ⟨event', hevent', hanswers⟩ := hresponses message (by simp [hcons]) hcommand
    obtain rfl : event = event' := Option.some.inj hevent'
    exact ⟨_, .takeResponse hphase hcons hread hcommand
      (checkResponse_of_answers e.platform hanswers) hflush⟩
  · obtain ⟨heap', messages', happend, -⟩ := fepListAppend_isQueue hq message
    exact ⟨_, .queueMessage hphase hcons hread hcommand happend⟩

/-- **No deadlock.** A session that is not at rest can take a step. -/
theorem exists_move {s : Session e n} (hreach : Reachable s) (hrest : ¬ AtRest s) :
    ∃ s', Move s s' := by
  have h := inv_of_reachable hreach
  have hserved := served_of_reachable hreach
  have hbounded := h.bounded
  cases hphase : s.phase with
  | broadcast event j handled =>
    rw [hphase] at hbounded
    rcases Nat.lt_or_eq_of_le hbounded.1 with hlt | heq
    · exact ⟨_, .sendRequest (j := ⟨j, Nat.lt_of_lt_of_le hlt h.connected⟩) hphase hlt⟩
    · exact ⟨_, .finish (heq ▸ hphase)⟩
  | waiting event j handled heap messages =>
    by_cases hchannel : s.channel j = []
    -- the response is not in the channel, so that the client has something to do
    · have hone := (h.clients j).outstanding
      rw [hphase, SessionPhase.awaits, if_pos rfl] at hone
      refine exists_move_client h hserved (i := j) ?_
      by_contra hcon
      obtain ⟨hinbox, houtbox⟩ := not_or.mp hcon
      simp [underWay, not_not.mp hinbox, not_not.mp houtbox, hchannel, responsesIn] at hone
    · exact exists_move_receive h hserved hphase hchannel
  | idle =>
    -- a step is left for whatever keeps the session from rest
    by_contra hstuck
    refine hrest ⟨hphase, ?_, ?_, ?_⟩
    · intro i
      by_contra hne
      exact hstuck (exists_move_client h hserved (Or.inl hne))
    · intro i
      by_contra hne
      exact hstuck (exists_move_client h hserved (Or.inr hne))
    · intro i hconnected
      by_contra hne
      obtain ⟨message, rest, hcons⟩ := List.exists_cons_of_ne_nil hne
      have hmessage := hserved.channel i message (hcons ▸ List.mem_cons_self)
      obtain ⟨done, hok, -⟩ := exists_dispatchOf i (s.fep, s.acts) hserved.showable hmessage.2
      exact hstuck ⟨_, .readMessage hphase hconnected hcons hmessage.1 hok⟩

theorem not_move_of_atRest {s s' : Session e n} (hrest : AtRest s) : ¬ Move s s' := by
  intro hmove
  cases hmove with
  | sendRequest hphase | queueMessage hphase | takeResponse hphase | finish hphase =>
    exact absurd (hrest.phase.symm.trans hphase) (by simp)
  | readMessage hphase hconnected hchannel =>
    exact absurd ((hrest.channel _ hconnected).symm.trans hchannel) (by simp)
  | dispatch hinbox => exact absurd ((hrest.inbox _).symm.trans hinbox) (by simp)
  | deliver houtbox => exact absurd ((hrest.outbox _).symm.trans houtbox) (by simp)

/-! ## What is left to do -/

/-- The requests that are still to be sent, and those that are still to be dispatched. -/
def requestsLeft (s : Session e n) : Nat :=
  s.phase.remaining s.connected + ∑ i, (s.inbox i).length

/-- The messages that are still to be handed to the server, each by the socket and by `read`. -/
def messagesLeft (s : Session e n) : Nat :=
  ∑ i, (2 * (s.outbox i).length + (s.channel i).length)

def rank (s : Session e n) : Nat ×ₗ Nat := toLex (s.requestsLeft, s.messagesLeft)

theorem rank_lt_of_requestsLeft {s s' : Session e n} (h : s'.requestsLeft < s.requestsLeft) :
    s'.rank < s.rank := Prod.Lex.toLex_lt_toLex.mpr (Or.inl h)

theorem rank_lt_of_messagesLeft {s s' : Session e n} (hrequests : s'.requestsLeft = s.requestsLeft)
    (h : s'.messagesLeft < s.messagesLeft) : s'.rank < s.rank :=
  Prod.Lex.toLex_lt_toLex.mpr (Or.inr ⟨hrequests, h⟩)

/-- A sum over the clients of which one summand changes. -/
theorem sum_update (f : Fin n → List FepControlMessage) (j : Fin n)
    (messages : List FepControlMessage) :
    ∑ i, (Function.update f j messages i).length + (f j).length =
      ∑ i, (f i).length + messages.length := by
  have hrest : ∑ i ∈ Finset.univ.erase j, (Function.update f j messages i).length =
      ∑ i ∈ Finset.univ.erase j, (f i).length := by
    apply Finset.sum_congr rfl
    intro i hi
    rw [Function.update_of_ne (Finset.ne_of_mem_erase hi)]
  rw [← Finset.add_sum_erase _ _ (Finset.mem_univ j), hrest, Function.update_self,
    ← Finset.add_sum_erase Finset.univ (fun i => (f i).length) (Finset.mem_univ j)]
  omega

theorem messagesLeft_eq (s : Session e n) :
    s.messagesLeft = 2 * ∑ i, (s.outbox i).length + ∑ i, (s.channel i).length := by
  rw [messagesLeft, Finset.sum_add_distrib, Finset.mul_sum]

/-- **No endless run.** Every step leaves less to do. -/
theorem rank_lt_of_move {s s' : Session e n} (hmove : Move s s') : s'.rank < s.rank := by
  cases hmove with
  | @sendRequest event j handled hphase hconnected =>
    apply rank_lt_of_requestsLeft
    have hsum := sum_update s.inbox j (s.inbox j ++ [event.request e.platform])
    rw [List.length_append, List.length_singleton] at hsum
    simp only [requestsLeft, hphase, SessionPhase.remaining]
    omega
  | @queueMessage event j handled heap heap' messages messages' message rest hphase hchannel
      hread hcommand happend =>
    apply rank_lt_of_messagesLeft
    · simp only [requestsLeft, hphase, SessionPhase.remaining]
    · have hsum := sum_update s.channel j rest
      rw [hchannel, List.length_cons] at hsum
      simp only [messagesLeft_eq]
      omega
  | @takeResponse event j handled heap heap' messages message rest retval fep' acts' hphase
      hchannel hread hcommand hcheck hflush =>
    apply rank_lt_of_messagesLeft
    · simp only [requestsLeft, hphase, SessionPhase.remaining]
    · have hsum := sum_update s.channel j rest
      rw [hchannel, List.length_cons] at hsum
      simp only [messagesLeft_eq]
      omega
  | @finish event handled hphase =>
    apply rank_lt_of_requestsLeft
    simp only [requestsLeft, hphase, SessionPhase.remaining]
    omega
  | @readMessage j message rest fep' acts' hphase hconnected hchannel hread hhandle =>
    refine rank_lt_of_messagesLeft rfl ?_
    have hsum := sum_update s.channel j rest
    rw [hchannel, List.length_cons] at hsum
    simp only [messagesLeft_eq]
    omega
  | @dispatch j filter request rest retval client' hinbox houtbox hread hservable hrun =>
    -- whatever the filter requests
    apply rank_lt_of_requestsLeft
    have hsum := sum_update s.inbox j rest
    rw [hinbox, List.length_cons] at hsum
    simp only [requestsLeft]
    omega
  | @deliver j message rest houtbox =>
    refine rank_lt_of_messagesLeft rfl ?_
    have hout := sum_update s.outbox j rest
    have hin := sum_update s.channel j (s.channel j ++ [message])
    rw [houtbox, List.length_cons] at hout
    rw [List.length_append, List.length_singleton] at hin
    simp only [messagesLeft_eq]
    omega

/-- The steps go on from a reachable state. -/
theorem reachable_of_moves {s s' : Session e n} (h : Reachable s)
    (hmoves : Relation.ReflTransGen Move s s') : Reachable s' := by
  induction hmoves with
  | refl => exact h
  | tail _ hmove ih => exact ih.move hmove

theorem exists_atRest {s : Session e n} (h : Reachable s) :
    ∃ s', Relation.ReflTransGen Move s s' ∧ AtRest s' := by
  induction hrank : s.rank using WellFoundedLT.induction generalizing s with
  | ind r ih =>
    by_cases hrest : AtRest s
    · exact ⟨s, .refl, hrest⟩
    · obtain ⟨s₁, hmove⟩ := exists_move h hrest
      have hlt : s₁.rank < r := hrank ▸ rank_lt_of_move hmove
      obtain ⟨s', hmoves, hrest'⟩ := ih _ hlt (h.move hmove) rfl
      exact ⟨s', .head hmove hmoves, hrest'⟩

/-! ## What has happened then -/

/-- The events that have begun. -/
def begun (s : Session e n) : List ServerEvent := s.past.map (·.1) ++ s.phase.current.toList

theorem begun_of_move {s s' : Session e n} (hmove : Move s s') :
    s'.begun = s.begun ∧ s'.connected = s.connected := by
  cases hmove with
  | sendRequest hphase | queueMessage hphase | takeResponse hphase | finish hphase =>
    simp [begun, hphase, SessionPhase.current]
  | readMessage | dispatch | deliver => exact ⟨rfl, rfl⟩

theorem begun_of_moves {s s' : Session e n} (hmoves : Relation.ReflTransGen Move s s') :
    s'.begun = s.begun ∧ s'.connected = s.connected := by
  induction hmoves with
  | refl => exact ⟨rfl, rfl⟩
  | tail _ hmove ih =>
    obtain ⟨hbegun, hconnected⟩ := begun_of_move hmove
    exact ⟨hbegun.trans ih.1, hconnected.trans ih.2⟩

/-- What a state of rest says. -/
structure Settled (s : Session e n) : Prop where
  /-- Every client has dispatched the events since it has been connected. -/
  seen : ∀ i, s.seen i = ((s.past.drop (s.joined i)).map (·.1)).map (ServerEvent.request e.platform)
  /-- All that the programs of the connected clients have asked for has been dispatched. -/
  dispatched : ∀ i, i.val < s.connected → dispatchedFrom i s.acts = s.wanted i

theorem settled_of_atRest {s : Session e n} (h : Inv s) (hrest : AtRest s) : Settled s where
  seen i := by
    have htold := (h.clients i).told
    rw [hrest.inbox, hrest.phase, h.concerning_past] at htold
    simpa [SessionPhase.told] using htold
  dispatched i hconnected := by
    obtain ⟨queue, hq, heq⟩ := (h.clients i).conserved
    have hnil : queue = [] := by
      rw [hrest.phase] at hq
      exact hq
    rw [hnil, hrest.channel i hconnected, hrest.outbox i] at heq
    simpa using heq

/-- A session at rest: the one client there is has not wanted the key `a`, and has sent it back. -/
theorem exists_sentBack (hp : e.platform.wordsBigEndian = false) :
    ∃ s : Session e 1, Reachable s ∧ AtRest s ∧
      s.connected = 1 ∧ s.seen 0 = [keyRequest e.platform keyA.toKey] ∧
      s.done 0 = [.answered none (keyRequest e.platform keyA.toKey)] ∧
      (s.client 0).written = [⟨.response, [[6], []]⟩, ⟨.sendData, [[97]]⟩] := by
  obtain ⟨fep, hstart⟩ := reachable_start e 1
  have haccepted := hstart.arrival (.accept rfl Nat.zero_lt_one (show 0 < fepMaxClients by decide))
  have hread := haccepted.arrival (.event (.key keyA.toKey) rfl (readable_keyA hp) rfl)
  have hsent := hread.move (.sendRequest (j := 0) rfl (show 0 < 1 by decide))
  obtain ⟨client', hrun, -, hwrote⟩ := dispatchRequest_spec e.platform none (idle_new [])
    (validRequest_keyRequest e.platform keyA.toKey)
  have hanswered := hsent.move (.dispatch (i := 0) rfl rfl (readable_keyA hp)
    (fun _ h => absurd h List.not_mem_nil) hrun)
  have hwritten : client'.written = [⟨.response, [[6], []]⟩, ⟨.sendData, [[97]]⟩] :=
    hwrote.written.trans rfl
  have houtbox : client'.written.drop 0 = [⟨.response, [[6], []]⟩, ⟨.sendData, [[97]]⟩] := hwritten
  have hdelivered := hanswered.move (.deliver (i := 0) houtbox)
  have hall := hdelivered.move (.deliver (i := 0) rfl)
  obtain ⟨heap, hflush⟩ := flushMessages_of_isQueue (dispatchOf (0 : Fin 1))
    (NodeHeap.isQueue_nil .empty) (fep, [])
  have htaken := hall.move (.takeResponse (j := 0) rfl rfl
    (readable_of_short hp (by decide)) rfl (checkResponse_of_answers e.platform rfl) hflush)
  have hfinished := htaken.move (.finish rfl)
  refine ⟨_, hfinished.move (.readMessage (j := 0) rfl Nat.one_pos rfl
    (readable_of_short hp (by decide)) rfl), ⟨rfl, ?_, ?_, ?_⟩, rfl, rfl, rfl, hwritten⟩
  · exact Fin.forall_fin_one.mpr rfl
  · exact Fin.forall_fin_one.mpr rfl
  · exact Fin.forall_fin_one.mpr fun _ => rfl

/-- **A session comes to rest.** From every state that is reached, whatever is under way, the parties
cannot go on for ever of themselves, whatever steps they take and whatever the filters request; they
can always go on until they are at rest; and then every event that had begun has been seen by every
client connected for it, and all that the connected clients have asked for has been dispatched. -/
theorem comes_to_rest {s : Session e n} (h : Reachable s) :
    (¬ ∃ run : Nat → Session e n, run 0 = s ∧ ∀ k, Move (run k) (run (k + 1))) ∧
      (∃ s', Relation.ReflTransGen Move s s' ∧ AtRest s') ∧
      ∀ s', Relation.ReflTransGen Move s s' →
        (AtRest s' ↔ ¬ ∃ s'', Move s' s'') ∧
        (AtRest s' → s'.past.map (·.1) = s.begun ∧ s'.connected = s.connected ∧ Settled s') := by
  refine ⟨?_, exists_atRest h, fun s' hmoves => ?_⟩
  · rintro ⟨run, -, hrun⟩
    obtain ⟨k, hnot⟩ := WellFounded.not_rel_apply_succ (r := (· < ·)) fun k => (run k).rank
    exact hnot (rank_lt_of_move (hrun k))
  have hreach := reachable_of_moves h hmoves
  refine ⟨⟨?_, ?_⟩, fun hrest => ?_⟩
  · rintro hrest ⟨s'', hmove⟩
    exact not_move_of_atRest hrest hmove
  · intro hstuck
    by_contra hrest
    exact hstuck (exists_move hreach hrest)
  · obtain ⟨hbegun, hconnected⟩ := begun_of_moves hmoves
    refine ⟨?_, hconnected, settled_of_atRest (inv_of_reachable hreach) hrest⟩
    rw [← hbegun, begun, hrest.phase]
    exact (List.append_nil _).symm

/-- Two clients are connected, and the key `a` has been read. -/
theorem comes_to_rest_two_clients : ∃ s : Session .default 2, s.begun = [.key keyA.toKey] ∧
    (¬ ∃ run : Nat → Session .default 2, run 0 = s ∧ ∀ k, Move (run k) (run (k + 1))) ∧
      (∃ s', Relation.ReflTransGen Move s s' ∧ AtRest s') ∧
      ∀ s', Relation.ReflTransGen Move s s' →
        (AtRest s' ↔ ¬ ∃ s'', Move s' s'') ∧
        (AtRest s' → s'.past.map (·.1) = s.begun ∧ s'.connected = s.connected ∧ Settled s') := by
  obtain ⟨fep, hreach⟩ := reachable_two_clients (e := .default) rfl
  exact ⟨_, rfl, comes_to_rest hreach⟩

end Session

end LibFep
