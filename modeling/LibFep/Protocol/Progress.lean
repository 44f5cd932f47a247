import Mathlib.Algebra.BigOperators.Fin
import Mathlib.Algebra.Order.BigOperators.Group.Finset
import LibFep.Lib.Runs
import LibFep.Protocol.Delivery

/-!
# LibFep — the server and its clients come to rest

The server never waits for a response that nobody will send, and no run goes on for ever.

* **`awaited_of_reachable`** — while the server waits for a client, the request, or the response to
  it, is under way.
* **`exists_step`** — a system that is not at rest can take a step.
* **`work_lt_of_step`** — every step leaves less to do, so the steps of a run are bounded by the
  work at its start.
* **`step_served`** — messages that can be read, and whose handlers get through, are followed by such.
* **`exists_atRest`** — every reachable state can be run on until it is at rest.
* **`delivered_iff`** — what the pty holds then.
-/

namespace LibFep

open Lib

variable {n : Nat} {e : Setting} {keys : List (TypedKey n)}

/-! ## The response is under way -/

/-- The number of responses among messages. -/
def responsesIn (messages : List FepControlMessage) : Nat :=
  messages.countP fun message => message.command = .response

@[simp] theorem responsesIn_append (messages messages' : List FepControlMessage) :
    responsesIn (messages ++ messages') = responsesIn messages + responsesIn messages' := by
  simp [responsesIn]

theorem responsesIn_cons (message : FepControlMessage) (messages : List FepControlMessage) :
    responsesIn (message :: messages) =
      responsesIn messages + if message.command = .response then 1 else 0 := by
  simp [responsesIn, List.countP_cons]

theorem responsesIn_expectedMessages_pos (p : Platform) (filter : Option FepEventFilter)
    (request : FepControlMessage) : 1 ≤ responsesIn (expectedMessages p filter request) := by
  rw [expectedMessages, responsesIn_cons]
  simp [expectedResponse]

/-- A request to client `i` that has not been answered, or an answer that has not arrived. -/
def System.underWay (s : System e n) (i : Fin n) : Nat :=
  (s.inbox i).length + responsesIn (s.outbox i) + responsesIn (s.channel i)

/-- While the server waits for a client, something is under way there. -/
def Awaited (s : System e n) : Prop :=
  ∀ key j handled heap messages, s.phase = .waiting key j handled heap messages →
    1 ≤ s.underWay j

/-- What a client dispatches, in a state with the invariant. -/
theorem Inv.written_dispatch {s : System e n} (h : Inv keys s) {i : Fin n}
    {filter : Option FepEventFilter} {request : FepControlMessage}
    {rest : List (Option FepEventFilter × FepControlMessage)} {retval : Int}
    {client' : FepClient} (hinbox : s.inbox i = (filter, request) :: rest)
    (hrun : dispatchRequest e.platform filter (s.client i) request = .ok (retval, client')) :
    client'.written.drop (s.client i).written.length = expectedMessages e.platform filter request := by
  obtain ⟨done, -, -, -, hclients⟩ := h
  have hclient := hclients i
  obtain ⟨key, hkey⟩ := hclient.requests (filter, request) (hinbox ▸ List.mem_cons_self)
  obtain ⟨rfl, rfl⟩ := Prod.mk.inj hkey
  obtain ⟨client₁, hrun₁, -, hwrote⟩ :=
    dispatchRequest_spec e.platform (key.filters i) hclient.idle
      (validRequest_keyRequest e.platform key.toKey)
  obtain ⟨-, rfl⟩ := Prod.mk.inj (Except.ok.inj (hrun₁.symm.trans hrun))
  rw [hwrote.written, List.drop_left]

theorem step_awaited {s s' : System e n} (h : Inv keys s) (ha : Awaited s)
    (hstep : Step s s') : Awaited s' := by
  intro key₁ j₁ handled₁ heap₁ messages₁ hphase₁
  cases hstep with
  | readKey hphase htyped => exact absurd hphase₁ (by simp)
  | @sendRequest key j handled hphase =>
    obtain ⟨-, rfl, -⟩ := Phase.waiting.inj hphase₁
    -- the request itself is under way
    simp [System.underWay]
    omega
  | @queueMessage key j handled heap heap' messages messages' message rest hphase hchannel hread
      hcommand happend =>
    obtain ⟨-, rfl, -⟩ := Phase.waiting.inj hphase₁
    have hbefore := ha _ _ _ _ _ hphase
    simp only [System.underWay, hchannel, responsesIn_cons, if_neg hcommand] at hbefore
    simpa [System.underWay] using hbefore
  | takeResponse hphase hchannel hread hcommand hcheck hflush => exact absurd hphase₁ (by simp)
  | finishKey hphase => exact absurd hphase₁ (by simp)
  | readMessage hphase hchannel hread hhandle =>
    exact absurd (hphase.symm.trans hphase₁) (by simp)
  | @dispatch i filter request rest retval client' hinbox houtbox hread hrun =>
    have hbefore := ha _ _ _ _ _ hphase₁
    by_cases hij : j₁ = i
    · subst hij
      have hnew := h.written_dispatch hinbox hrun
      have hpos := responsesIn_expectedMessages_pos e.platform filter request
      -- a request less, but its response is to be delivered
      simp only [System.underWay, Function.update_self, hnew]
      omega
    · simpa [System.underWay, Function.update_of_ne hij] using hbefore
  | @deliver i message rest houtbox =>
    have hbefore := ha _ _ _ _ _ hphase₁
    by_cases hij : j₁ = i
    · subst hij
      simp only [System.underWay, houtbox, responsesIn_cons] at hbefore
      simp only [System.underWay, Function.update_self, responsesIn_append, responsesIn_cons]
      simp only [responsesIn, List.countP_nil] at hbefore ⊢
      omega
    · simpa [System.underWay, Function.update_of_ne hij] using hbefore

theorem echo_awaited {s s' : System e n} (ha : Awaited s) (hecho : Echo s s') : Awaited s' := by
  cases hecho with
  | childOutput hphase hlen hrun => exact ha

theorem awaited_of_reachable (hn : 0 < n) {s : System e n} (h : Reachable keys s) :
    Awaited s := by
  obtain ⟨s₀, hstarts, hruns⟩ := h
  induction hruns with
  | refl =>
    obtain ⟨fep, -, rfl⟩ := hstarts.started
    intro key j handled heap messages hphase
    exact absurd hphase (by simp [System.start])
  | tail hreach hstep ih =>
    exact hstep.elim (step_awaited (inv_of_reachable hn ⟨s₀, hstarts, hreach⟩) ih) (echo_awaited ih)

/-! ## Messages that can be dealt with -/

/-- What a client writes about a request that it can read: its response, what its filter asks for, and the
key. -/
theorem servable_of_mem_expectedMessages {filter : Option FepEventFilter}
    {request : FepControlMessage} (hvalid : ValidRequest request)
    (hread : Readable e.platform [request])
    (hrequested : ∀ message ∈ requestedMessages e.platform filter request, Servable e message) :
    ∀ message ∈ expectedMessages e.platform filter request, Servable e message := by
  have hargs := List.forall_mem_singleton.mp hread
  have hfour : e.platform.LengthReadable 4 := by
    cases hvalid with
    | keyEvent keyval modifiers source hkeyval hmodifiers =>
      exact hkeyval ▸ hargs keyval List.mem_cons_self
    | resizeEvent cols rows hcols hrows => exact hcols ▸ hargs cols List.mem_cons_self
  have hsource : e.platform.LengthReadable (request.args.getD 2 []).length := by
    cases hvalid with
    | keyEvent keyval modifiers source hkeyval hmodifiers => exact hargs source (by simp)
    | resizeEvent cols rows hcols hrows => exact hfour.of_lt (show 0 < 128 by decide)
  intro message hmem
  rcases List.mem_cons.mp hmem with rfl | hmem
  -- the response
  · refine ⟨List.forall_mem_singleton.mpr fun arg harg => hfour.of_lt ?_, trivial⟩
    rcases List.mem_cons.mp harg with rfl | harg
    · exact Nat.lt_of_sub_eq_succ rfl
    · rw [List.mem_singleton.mp harg]
      cases filter with
      | none => exact Nat.succ_pos _
      | some f => exact (e.platform.length_wireWord _).trans_lt (by decide)
  rcases List.mem_append.mp hmem with hmem | hmem
  · exact hrequested message hmem
  -- the key that is sent back
  · unfold sentBack at hmem
    split at hmem
    · rw [List.mem_singleton.mp hmem]
      exact ⟨List.forall_mem_singleton.mpr (List.forall_mem_singleton.mpr hsource), trivial⟩
    · exact absurd hmem List.not_mem_nil

/-- Keys that all parties can deal with, and requests of the filters that they can. -/
structure Acceptable (e : Setting) (keys : List (TypedKey n)) : Prop where
  readable : ∀ key ∈ keys, Readable e.platform [keyRequest e.platform key.toKey]
  requests_readable : ∀ key ∈ keys, ∀ i, ∀ r ∈ requestsFor i key,
    Readable e.platform [r.message e.platform]
  requests_harmless : ∀ key ∈ keys, ∀ i, ∀ r ∈ requestsFor i key, r.Harmless e

theorem Acceptable.servable (h : Acceptable e keys) {key : TypedKey n} (hkey : key ∈ keys)
    (i : Fin n) : ∀ message ∈ expectedMessages e.platform (key.filters i)
      (keyRequest e.platform key.toKey), Servable e message := by
  apply servable_of_mem_expectedMessages (validRequest_keyRequest e.platform key.toKey)
    (h.readable key hkey)
  intro message hmem
  cases hfilter : key.filters i with
  | none =>
    rw [hfilter] at hmem
    exact absurd hmem List.not_mem_nil
  | some f =>
    rw [hfilter] at hmem
    obtain ⟨r, hr, rfl⟩ := List.mem_map.mp hmem
    have hrequest : r ∈ requestsFor i key := by
      rw [requestEvent_keyRequest] at hr
      rw [requestsFor, hfilter]
      exact hr
    exact ⟨h.requests_readable key hkey i r hrequest,
      (harmless_message_iff e r).mpr (h.requests_harmless key hkey i r hrequest)⟩

/-- No party is stopped: what is on the screen can be shown again, and all that is under way can be dealt
with. -/
structure Served (keys : List (TypedKey n)) (s : System e n) : Prop where
  showable : Showable s.fep
  inbox : ∀ i, ∀ r ∈ s.inbox i, ∃ key ∈ keys, r = (key.filters i, keyRequest e.platform key.toKey)
  channel : ∀ i, ∀ message ∈ s.channel i, Servable e message
  outbox : ∀ i, ∀ message ∈ s.outbox i, Servable e message
  queued : ∀ i, ∃ queue, s.phase.Queue i queue ∧ ∀ message ∈ queue, Harmless e message

theorem served_start {fep : Fep e.locale} (hshowable : Showable fep) (keys : List (TypedKey n)) :
    Served keys (System.start fep keys) where
  showable := hshowable
  inbox _ _ h := absurd h List.not_mem_nil
  channel _ _ h := absurd h List.not_mem_nil
  outbox _ _ h := absurd h List.not_mem_nil
  queued _ := ⟨[], rfl, List.forall_mem_nil _⟩

theorem forall_mem_update {ι α : Type} [DecidableEq ι] {f : ι → List α} {j : ι} {as : List α}
    {P : ι → α → Prop} (hself : ∀ a ∈ as, P j a) (hf : ∀ i, ∀ a ∈ f i, P i a) :
    ∀ i, ∀ a ∈ Function.update f j as i, P i a := by
  intro i a hmem
  by_cases hij : i = j
  · subst hij
    rw [Function.update_self] at hmem
    exact hself a hmem
  · rw [Function.update_of_ne hij] at hmem
    exact hf i a hmem

/-- Handling harmless messages leaves a screen that can be shown. -/
theorem exists_handleMessage (j : Fin n) (shown : Fep e.locale × Pty n) (hs : Showable shown.1)
    {message : FepControlMessage} (h : Harmless e message) :
    ∃ shown', handleMessage j shown message = .ok shown' ∧ Showable shown'.1 := by
  obtain ⟨fep', hrun, hshowable⟩ := exists_runHandler hs h
  exact ⟨_, bind_eq_ok.mpr ⟨_, hrun, rfl⟩, hshowable⟩

theorem exists_foldlM_handleMessage (j : Fin n) (shown : Fep e.locale × Pty n)
    (hs : Showable shown.1) {messages : List FepControlMessage}
    (h : ∀ message ∈ messages, Harmless e message) :
    ∃ shown', messages.foldlM (handleMessage j) shown = .ok shown' ∧ Showable shown'.1 :=
  exists_foldlM_ok (P := fun shown => Showable shown.1)
    (fun shown hs message hmem => exists_handleMessage j shown hs (h message hmem)) hs

/-- What has been queued for the client that is waited for. -/
theorem Served.queue {s : System e n} (h : Served keys s) {key : TypedKey n} {j : Fin n}
    {handled : Bool} {heap : NodeHeap FepControlMessage} {messages : Option Nat}
    (hphase : s.phase = .waiting key j handled heap messages) :
    ∃ queue, NodeHeap.IsQueue heap messages queue ∧ ∀ message ∈ queue, Harmless e message := by
  obtain ⟨queue, hq, hharmless⟩ := h.queued j
  rw [hphase, Phase.Queue, if_pos rfl] at hq
  exact ⟨queue, hq, hharmless⟩

/-- Nothing has been queued for the others. -/
theorem queued_of_waiting {key : TypedKey n} {j : Fin n} {handled : Bool}
    {heap : NodeHeap FepControlMessage} {messages : Option Nat} {queue : List FepControlMessage}
    (hq : NodeHeap.IsQueue heap messages queue) (hharmless : ∀ message ∈ queue, Harmless e message)
    (i : Fin n) : ∃ queue, (Phase.waiting key j handled heap messages).Queue i queue ∧
      ∀ message ∈ queue, Harmless e message := by
  by_cases hij : i = j
  · exact ⟨queue, by rwa [Phase.Queue, if_pos hij], hharmless⟩
  · exact ⟨[], by rw [Phase.Queue, if_neg hij], List.forall_mem_nil _⟩

/-- **Each step leaves everybody served.** -/
theorem step_served (hkeys : Acceptable e keys) {s s' : System e n} (hinv : Inv keys s)
    (h : Served keys s) (hstep : Step s s') : Served keys s' := by
  have hnil (i : Fin n) : ∃ queue : List FepControlMessage,
      queue = [] ∧ ∀ message ∈ queue, Harmless e message := ⟨[], rfl, List.forall_mem_nil _⟩
  cases hstep with
  | readKey hphase htyped => exact ⟨h.showable, h.inbox, h.channel, h.outbox, hnil⟩
  | @sendRequest key j handled hphase =>
    obtain ⟨done, hall, -⟩ := id hinv
    have hkey : key ∈ keys := by
      rw [hall, hphase]
      simp [Phase.current]
    refine ⟨h.showable, forall_mem_update (fun r hr => ?_) h.inbox, h.channel, h.outbox,
      queued_of_waiting (NodeHeap.isQueue_nil _) (List.forall_mem_nil _)⟩
    rcases List.mem_append.mp hr with hr | hr
    · exact h.inbox j r hr
    · exact ⟨key, hkey, List.mem_singleton.mp hr⟩
  | @queueMessage key j handled heap heap' messages messages' message rest hphase hchannel hread
      hcommand happend =>
    obtain ⟨hmessage, hrest⟩ := List.forall_mem_cons.mp (hchannel ▸ h.channel j)
    obtain ⟨queue, hq, hharmless⟩ := h.queue hphase
    obtain ⟨heap₁, messages₁, happend₁, hq₁⟩ := fepListAppend_isQueue hq message
    obtain ⟨rfl, rfl⟩ := Prod.mk.inj (Except.ok.inj (happend₁.symm.trans happend))
    refine ⟨h.showable, h.inbox, forall_mem_update hrest h.channel, h.outbox,
      queued_of_waiting hq₁ ?_⟩
    exact List.forall_mem_append.mpr ⟨hharmless, List.forall_mem_singleton.mpr hmessage.2⟩
  | @takeResponse key j handled heap heap' messages message rest retval fep' pty' hphase hchannel
      hread hcommand hcheck hflush =>
    obtain ⟨-, hrest⟩ := List.forall_mem_cons.mp (hchannel ▸ h.channel j)
    obtain ⟨queue, hq, hharmless⟩ := h.queue hphase
    obtain ⟨shown, hfold, hshowable⟩ :=
      exists_foldlM_handleMessage j (s.fep, s.pty) h.showable hharmless
    obtain rfl := Except.ok.inj (hfold.symm.trans (flushMessages_ok hq hflush))
    exact ⟨hshowable, h.inbox, forall_mem_update hrest h.channel, h.outbox, hnil⟩
  | finishKey hphase => exact ⟨h.showable, h.inbox, h.channel, h.outbox, hnil⟩
  | @readMessage j message rest fep' pty' hphase hchannel hread hhandle =>
    obtain ⟨hmessage, hrest⟩ := List.forall_mem_cons.mp (hchannel ▸ h.channel j)
    obtain ⟨shown, hok, hshowable⟩ :=
      exists_handleMessage j (s.fep, s.pty) h.showable hmessage.2
    obtain rfl := Except.ok.inj (hok.symm.trans hhandle)
    exact ⟨hshowable, h.inbox, forall_mem_update hrest h.channel, h.outbox, h.queued⟩
  | @dispatch j filter request rest retval client' hinbox houtbox hread hrun =>
    obtain ⟨hfirst, hrest⟩ := List.forall_mem_cons.mp (hinbox ▸ h.inbox j)
    obtain ⟨key, hkey, heq⟩ := hfirst
    have hnew := hinv.written_dispatch hinbox hrun
    obtain ⟨rfl, rfl⟩ := Prod.mk.inj heq
    refine ⟨h.showable, forall_mem_update hrest h.inbox, h.channel,
      forall_mem_update ?_ h.outbox, h.queued⟩
    rw [hnew]
    exact hkeys.servable hkey j
  | @deliver j message rest houtbox =>
    obtain ⟨hmessage, hrest⟩ := List.forall_mem_cons.mp (houtbox ▸ h.outbox j)
    refine ⟨h.showable, h.inbox, forall_mem_update ?_ h.channel, forall_mem_update hrest h.outbox,
      h.queued⟩
    exact List.forall_mem_append.mpr ⟨h.channel j, List.forall_mem_singleton.mpr hmessage⟩

theorem echo_served {s s' : System e n} (h : Served keys s) (hecho : Echo s s') :
    Served keys s' := by
  cases hecho with
  | childOutput hphase hlen hrun =>
    exact ⟨h.showable.childOutput hlen hrun, h.inbox, h.channel, h.outbox, h.queued⟩

theorem served_of_reachable (hn : 0 < n) (hkeys : Acceptable e keys) {s : System e n}
    (h : Reachable keys s) : Served keys s := by
  obtain ⟨s₀, hstarts, hruns⟩ := h
  induction hruns with
  | refl =>
    obtain ⟨fep, hstart, rfl⟩ := hstarts.started
    exact served_start (showable_of_screenStart hstart) keys
  | tail hreach hstep ih =>
    exact hstep.elim (step_served hkeys (inv_of_reachable hn ⟨s₀, hstarts, hreach⟩) ih)
      (echo_served ih)

/-! ## A step can be taken -/

theorem exists_dispatch (hkeys : Acceptable e keys) {s : System e n} (h : Inv keys s)
    (hserved : Served keys s) {i : Fin n} (hinbox : s.inbox i ≠ []) (houtbox : s.outbox i = []) :
    ∃ s', Step s s' := by
  obtain ⟨done, -, -, -, hclients⟩ := h
  have hclient := hclients i
  obtain ⟨r, rest, hcons⟩ := List.exists_cons_of_ne_nil hinbox
  obtain ⟨key, hkey, rfl⟩ := hserved.inbox i r (hcons ▸ List.mem_cons_self)
  obtain ⟨client', hrun, -, -⟩ :=
    dispatchRequest_spec e.platform (key.filters i) hclient.idle
      (validRequest_keyRequest e.platform key.toKey)
  exact ⟨_, .dispatch hcons houtbox (hkeys.readable key hkey) hrun⟩

theorem exists_client_step (hkeys : Acceptable e keys) {s : System e n} (h : Inv keys s)
    (hserved : Served keys s) {i : Fin n} (hwork : s.inbox i ≠ [] ∨ s.outbox i ≠ []) :
    ∃ s', Step s s' := by
  by_cases houtbox : s.outbox i = []
  · rcases hwork with hinbox | hne
    · exact exists_dispatch hkeys h hserved hinbox houtbox
    · exact absurd houtbox hne
  · obtain ⟨message, rest, hcons⟩ := List.exists_cons_of_ne_nil houtbox
    exact ⟨_, .deliver hcons⟩

/-- While it waits, the server takes any message from the client it waits for. -/
theorem exists_receive {s : System e n} (h : Inv keys s) (hserved : Served keys s)
    {key : TypedKey n} {j : Fin n} {handled : Bool} {heap : NodeHeap FepControlMessage}
    {messages : Option Nat}
    (hphase : s.phase = .waiting key j handled heap messages) (hchannel : s.channel j ≠ []) :
    ∃ s', Step s s' := by
  obtain ⟨done, -, -, -, hclients⟩ := h
  obtain ⟨-, -, hresponses, -⟩ := hclients j
  obtain ⟨queue, hq, hharmless⟩ := hserved.queue hphase
  obtain ⟨message, rest, hcons⟩ := List.exists_cons_of_ne_nil hchannel
  have hread := (hserved.channel j message (hcons ▸ List.mem_cons_self)).1
  by_cases hcommand : message.command = .response
  · obtain ⟨heap', hflush⟩ := flushMessages_of_isQueue (handleMessage j) hq (s.fep, s.pty)
    obtain ⟨shown, hfold, -⟩ :=
      exists_foldlM_handleMessage j (s.fep, s.pty) hserved.showable hharmless
    rw [hfold] at hflush
    have hhead := hresponses message (by simp [hcons]) hcommand
    exact ⟨_, .takeResponse hphase hcons hread hcommand
      (checkResponse_keyRequest e.platform key.toKey hhead) hflush⟩
  · obtain ⟨heap', messages', happend, -⟩ := fepListAppend_isQueue hq message
    exact ⟨_, .queueMessage hphase hcons hread hcommand happend⟩

/-- **No deadlock.** A system that is not at rest can take a step. -/
theorem exists_step (hn : 0 < n) (hkeys : Acceptable e keys) {s : System e n}
    (h : Reachable keys s) (hrest : ¬ AtRest s) : ∃ s', Step s s' := by
  have hinv := inv_of_reachable hn h
  have hserved := served_of_reachable hn hkeys h
  have hawaited := awaited_of_reachable hn h
  obtain ⟨done, -, hmarked, -, -⟩ := id hinv
  cases hphase : s.phase with
  | broadcast key j handled =>
    rw [hphase] at hmarked
    rcases Nat.lt_or_eq_of_le hmarked.1 with hlt | rfl
    · exact ⟨_, .sendRequest (j := ⟨j, hlt⟩) hphase⟩
    · exact ⟨_, .finishKey hphase⟩
  | waiting key j handled heap messages =>
    by_cases hchannel : s.channel j = []
    -- the response is not in the channel, so that the client has something to do
    · have hone := hawaited _ _ _ _ _ hphase
      refine exists_client_step hkeys hinv hserved (i := j) ?_
      by_contra hcon
      obtain ⟨hinbox, houtbox⟩ := not_or.mp hcon
      simp [System.underWay, not_not.mp hinbox, not_not.mp houtbox, hchannel, responsesIn] at hone
    · exact exists_receive hinv hserved hphase hchannel
  | idle =>
    cases htyped : s.typed with
    | cons key rest => exact ⟨_, .readKey hphase htyped⟩
    -- nothing is typed any more: a step is left for whatever keeps the system from rest
    | nil =>
      by_contra hstuck
      refine hrest ⟨hphase, htyped, ?_, ?_, ?_⟩
      · intro i
        by_contra hne
        exact hstuck (exists_client_step hkeys hinv hserved (Or.inl hne))
      · intro i
        by_contra hne
        exact hstuck (exists_client_step hkeys hinv hserved (Or.inr hne))
      · intro i
        by_contra hne
        obtain ⟨message, rest, hcons⟩ := List.exists_cons_of_ne_nil hne
        have hmessage := hserved.channel i message (hcons ▸ List.mem_cons_self)
        obtain ⟨shown, hok, -⟩ := exists_handleMessage i (s.fep, s.pty) hserved.showable hmessage.2
        exact hstuck ⟨_, .readMessage hphase hcons hmessage.1 hok⟩

/-! ## The work that is left -/

/-- The steps that a request takes at a client: it is dispatched, and each of the messages is handed
to the socket and taken from it. -/
def requestWork (e : Setting) (filter : Option FepEventFilter) (request : FepControlMessage) :
    Nat :=
  2 * (expectedMessages e.platform filter request).length + 1

def keyWork (e : Setting) (i : Fin n) (key : TypedKey n) : Nat :=
  requestWork e (key.filters i) (keyRequest e.platform key.toKey) + 1

/-- What the loop over the clients has still to do with client `i`. -/
def Phase.work (e : Setting) (i : Fin n) : Phase n → Nat
  | .idle => 0
  | .broadcast key j _ => if j ≤ i.val then keyWork e i key else 0
  | .waiting key j _ _ _ => if j.val < i.val then keyWork e i key else 0

def Phase.rounds : Phase n → Nat
  | .idle => 0
  | .broadcast _ _ _ | .waiting _ _ _ _ _ => 1

/-- The work left with client `i`. -/
def System.clientWork (e : Setting) (s : System e n) (i : Fin n) : Nat :=
  (s.channel i).length + 2 * (s.outbox i).length
    + ((s.inbox i).map fun r => requestWork e r.1 r.2).sum
    + s.phase.work e i + (s.typed.map (keyWork e i)).sum

def System.work (e : Setting) (s : System e n) : Nat :=
  2 * s.typed.length + s.phase.rounds + ∑ i, s.clientWork e i

theorem work_lt_of_client {s s' : System e n} {j : Fin n}
    (hglobal : 2 * s'.typed.length + s'.phase.rounds ≤ 2 * s.typed.length + s.phase.rounds)
    (hself : s'.clientWork e j < s.clientWork e j)
    (hother : ∀ i, i ≠ j → s'.clientWork e i = s.clientWork e i) :
    s'.work e < s.work e := by
  have hsum : ∑ i, s'.clientWork e i < ∑ i, s.clientWork e i := by
    refine Finset.sum_lt_sum ?_ ⟨j, Finset.mem_univ j, hself⟩
    intro i _
    by_cases hij : i = j
    · subst hij
      exact Nat.le_of_lt hself
    · exact Nat.le_of_eq (hother i hij)
  unfold System.work
  omega

theorem work_lt_of_loop {s s' : System e n}
    (hglobal : 2 * s'.typed.length + s'.phase.rounds < 2 * s.typed.length + s.phase.rounds)
    (hclients : ∀ i, s'.clientWork e i = s.clientWork e i) :
    s'.work e < s.work e := by
  unfold System.work
  simp only [hclients]
  omega

/-- **No endless run.** Every step leaves less work. -/
theorem work_lt_of_step {s s' : System e n} (h : Inv keys s)
    (hstep : Step s s') : s'.work e < s.work e := by
  cases hstep with
  | @readKey key rest hphase htyped =>
    refine work_lt_of_loop ?_ fun i => ?_
    · simp [hphase, htyped, Phase.rounds]
      omega
    · simp only [System.clientWork, hphase, htyped, Phase.work, List.map_cons, List.sum_cons,
        Nat.zero_le, if_true]
      omega
  | @sendRequest key j handled hphase =>
    refine work_lt_of_client (j := j) ?_ ?_ fun i hij => ?_
    · simp [hphase, Phase.rounds]
    · simp [System.clientWork, hphase, Phase.work, keyWork]
      omega
    · have hne : i.val ≠ j.val := fun heq => hij (Fin.ext heq)
      simp only [System.clientWork, hphase, Phase.work, Function.update_of_ne hij,
        show j.val < i.val ↔ j.val ≤ i.val by omega]
  | @queueMessage key j handled heap heap' messages messages' message rest hphase hchannel hread
      hcommand happend =>
    refine work_lt_of_client (j := j) ?_ ?_ fun i hij => ?_
    · simp [hphase, Phase.rounds]
    · simp [System.clientWork, hphase, Phase.work, hchannel]
    · simp [System.clientWork, hphase, Phase.work, Function.update_of_ne hij]
  | @takeResponse key j handled heap heap' messages message rest retval fep' pty' hphase hchannel
      hread hcommand hcheck hflush =>
    refine work_lt_of_client (j := j) ?_ ?_ fun i hij => ?_
    · simp [hphase, Phase.rounds]
    · simp [System.clientWork, hphase, Phase.work, hchannel]
    · simp only [System.clientWork, hphase, Phase.work, Function.update_of_ne hij, Nat.succ_le_iff]
  | @finishKey key handled hphase =>
    refine work_lt_of_loop ?_ fun i => ?_
    · simp [hphase, Phase.rounds]
    · have hlt := i.isLt
      simp [System.clientWork, hphase, Phase.work, hlt]
  | @readMessage j message rest fep' pty' hphase hchannel hread hhandle =>
    refine work_lt_of_client (j := j) (Nat.le_refl _) ?_ fun i hij => ?_
    · simp [System.clientWork, hchannel]
    · simp [System.clientWork, Function.update_of_ne hij]
  | @dispatch j filter request rest retval client' hinbox houtbox hread hrun =>
    have hnew := h.written_dispatch hinbox hrun
    refine work_lt_of_client (j := j) (Nat.le_refl _) ?_ fun i hij => ?_
    · simp only [System.clientWork, Function.update_self, hinbox, houtbox, hnew, List.map_cons,
        List.sum_cons, requestWork, List.length_nil]
      omega
    · simp [System.clientWork, Function.update_of_ne hij]
  | @deliver j message rest houtbox =>
    refine work_lt_of_client (j := j) (Nat.le_refl _) ?_ fun i hij => ?_
    · simp [System.clientWork, houtbox]
      omega
    · simp [System.clientWork, Function.update_of_ne hij]

theorem Reachable.step {s s' : System e n} (h : Reachable keys s) (hstep : Step s s') :
    Reachable keys s' := by
  obtain ⟨s₀, hstarts, hruns⟩ := h
  exact ⟨s₀, hstarts, hruns.tail (Or.inl hstep)⟩

/-- **Every run can be brought to rest.** Induction on the work that is left. -/
theorem exists_atRest (hn : 0 < n) (hkeys : Acceptable e keys) {s : System e n}
    (h : Reachable keys s) :
    ∃ s', Reachable keys s' ∧ Relation.ReflTransGen Step s s' ∧ AtRest s' := by
  induction hwork : s.work e using Nat.strong_induction_on generalizing s with
  | _ w ih =>
    by_cases hrest : AtRest s
    · exact ⟨s, h, .refl, hrest⟩
    · obtain ⟨s₁, hstep⟩ := exists_step hn hkeys h hrest
      have hlt := work_lt_of_step (inv_of_reachable hn h) hstep
      obtain ⟨s', hreach, hruns, hrest'⟩ := ih _ (hwork ▸ hlt) (h.step hstep) rfl
      exact ⟨s', hreach, .head hstep hruns, hrest'⟩

/-! ## The keys that are delivered -/

/-- As many clients as there is room for are accepted. -/
theorem exists_starts (hroom : n ≤ fepMaxClients) (keys : List (TypedKey n)) :
    ∃ s : System e n, Starts keys s := by
  obtain ⟨fep, hfep⟩ := exists_screenStart e.locale
  have hfds : ∀ fd ∈ List.replicate n (0 : BitVec 32), fd.msb = false := by
    intro fd hfd
    rw [List.eq_of_mem_replicate hfd]
    rfl
  obtain ⟨server, haccept⟩ := (acceptAll_ok_iff e.platform (s := .new) (Nat.zero_le _) hfds).mpr (by
    rw [List.length_replicate]
    exact (Nat.zero_add n).trans_le hroom)
  exact ⟨.start fep keys, ⟨_, server, List.length_replicate, hfds, haccept⟩, fep, hfep, rfl⟩

/-- **When every key is delivered as it should be.** With as many clients as the table has room for, keys
that can be read and filters whose requests can be dealt with: there are runs, every run can be brought to
rest, and at the end of every run that is at rest the pty has each key that no client handles once and the
other keys not at all, exactly when there is one client or every client handles every key. -/
theorem delivered_iff {e : Setting} {n : Nat} (hn : 0 < n) (hroom : n ≤ fepMaxClients)
    {keys : List (TypedKey n)} (hkeys : Acceptable e keys) :
    (∃ s : System e n, Starts keys s) ∧
      (∀ s : System e n, Reachable keys s →
        ∃ s', Reachable keys s' ∧ Relation.ReflTransGen Step s s' ∧ AtRest s') ∧
      ∀ s : System e n, Reachable keys s → AtRest s →
        (Delivered e keys s ↔ n = 1 ∨ ∀ key ∈ keys, ∀ i, HandlesKey i key) :=
  ⟨exists_starts hroom keys, fun _ h => exists_atRest hn hkeys h,
    fun _ h hrest => delivered_iff_of_atRest hn h hrest⟩

/-- The key `a`, with two clients that have no filter: neither handles it. -/
def keyA : TypedKey 2 := ⟨⟨97, 0, [97]⟩, fun _ => none⟩

theorem acceptable_keyA : Acceptable .default [keyA] where
  readable := List.forall_mem_singleton.mpr (readable_of_short rfl (by decide))
  requests_readable := List.forall_mem_singleton.mpr fun _ _ h => absurd h List.not_mem_nil
  requests_harmless := List.forall_mem_singleton.mpr fun _ _ h => absurd h List.not_mem_nil

theorem delivered_iff_two_clients :
    (∃ s : System .default 2, Starts [keyA] s) ∧
      (∀ s : System .default 2, Reachable [keyA] s →
        ∃ s', Reachable [keyA] s' ∧ Relation.ReflTransGen Step s s' ∧ AtRest s') ∧
      ∀ s : System .default 2, Reachable [keyA] s → AtRest s →
        (Delivered .default [keyA] s ↔ 2 = 1 ∨ ∀ key ∈ [keyA], ∀ i, HandlesKey i key) :=
  delivered_iff (by decide) (by decide) acceptable_keyA

/-- The key that neither of two clients handles is on the pty twice. -/
theorem not_delivered_two_clients :
    ∃ s : System .default 2, Reachable [keyA] s ∧ AtRest s ∧
      (s.pty.map (·.2)).Perm [[97], [97]] ∧ ¬ Delivered .default [keyA] s := by
  obtain ⟨s₀, hstarts⟩ := exists_starts (e := .default) (by decide) [keyA]
  obtain ⟨s, hreach, -, hrest⟩ := exists_atRest (by decide) acceptable_keyA ⟨s₀, hstarts, .refl⟩
  have hpty := pty_perm_of_atRest (by decide) hreach hrest
  refine ⟨s, hreach, hrest, hpty, ?_⟩
  rw [delivered_iff_of_atRest (by decide) hreach hrest]
  decide

end LibFep
