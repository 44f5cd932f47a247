import Mathlib.Algebra.Group.Action.Defs
import Mathlib.Algebra.Order.BigOperators.Group.List
import Mathlib.Algebra.Order.Ring.Nat
import Mathlib.Data.List.FinRange
import Mathlib.Data.List.Perm.Basic
import LibFep.Protocol.Broadcast

/-!
# LibFep — which keys reach the pty

What the server has written to the pty when every key has been typed and every message processed.

* **`step_inv`** — every step keeps the invariant: one lemma for each.
* **`pty_perm_of_atRest`** — at rest, the pty holds what the clients have sent for each key they were
  asked about, and nothing that the server has written by itself.
* **`delivered_iff`** — hence the keys that no client handles are on the pty once, and the others
  not at all, exactly when there is one client or every client handles every key: the server takes
  any response for a handled key, and each client sends back the keys that it does not handle
  itself.
-/

namespace LibFep

open Lib

variable {n : Nat} {e : Setting} {keys : List (TypedKey n)}

/-! ## What a client answers -/

theorem command_message_ne_response (p : Platform) (r : ClientRequest) :
    (r.message p).command ≠ .response := by
  cases r <;> simp [ClientRequest.message]

theorem command_ne_response_of_mem (p : Platform) (filter : Option FepEventFilter)
    (request : FepControlMessage) :
    ∀ message ∈ requestedMessages p filter request ++ sentBack p filter request,
      message.command ≠ .response := by
  intro message hmem
  rcases List.mem_append.mp hmem with hmem | hmem
  · cases filter with
    | none => exact absurd hmem (by simp [requestedMessages])
    | some f =>
      obtain ⟨r, -, rfl⟩ := List.mem_map.mp hmem
      exact command_message_ne_response p r
  · unfold sentBack at hmem
    split at hmem
    · rw [List.mem_singleton.mp hmem]
      simp
    · exact absurd hmem (by simp)

/-- The RESPONSE names the command of the key event. -/
theorem head?_args_of_mem_expectedMessages (p : Platform) (filter : Option FepEventFilter)
    (key : Key) : ∀ message ∈ expectedMessages p filter (keyRequest p key),
      message.command = .response →
        message.args.head? = some [FepControlCommand.keyEvent.toByte] := by
  intro message hmem hcommand
  rcases List.mem_cons.mp hmem with rfl | hmem
  · rfl
  · exact absurd hcommand (command_ne_response_of_mem p filter _ message hmem)

/-- Such a RESPONSE is accepted, whatever value it carries. -/
theorem checkResponse_keyRequest (p : Platform) (key : Key) {message : FepControlMessage}
    (h : message.args.head? = some [FepControlCommand.keyEvent.toByte]) :
    checkResponse p (keyRequest p key) message = .ok 0 := by
  have hcheckable : Checkable (keyRequest p key) message := by
    intro byte hbyte
    rw [h] at hbyte
    exact (List.cons.inj (Option.some.inj hbyte)).1.symm
  rw [checkResponse_of_checkable p hcheckable, h]
  rfl

/-! ## Each step keeps the invariant -/

theorem inv_start (fep : Fep e.locale) (keys : List (TypedKey n)) :
    Inv keys (System.start fep keys) := by
  refine ⟨[], rfl, trivial, rfl, ?_⟩
  intro i
  refine ⟨idle_new [], ?_, ?_, ⟨[], rfl, rfl⟩⟩
  · simp [System.start]
  · simp [System.start]

theorem inv_readKey {s : System e n} (h : Inv keys s) {key : TypedKey n} {rest : List (TypedKey n)}
    (hphase : s.phase = .idle) (htyped : s.typed = key :: rest) :
    Inv keys { s with phase := .broadcast key 0 false, typed := rest } := by
  obtain ⟨done, hkeys, -, hdirect, hclients⟩ := h
  refine ⟨done, ?_, ⟨Nat.zero_le _, fun h0 => absurd h0 (Nat.lt_irrefl 0)⟩, hdirect, ?_⟩
  · rw [hkeys, hphase, htyped]
    simp [Phase.current]
  · intro i
    refine (hclients i).frame rfl rfl rfl rfl rfl ?_ ?_
    · rw [hphase]
      exact fun queue hq => hq
    · rw [hphase]
      simp [Phase.asked]

theorem inv_sendRequest {s : System e n} (h : Inv keys s) {key : TypedKey n} {j : Fin n}
    {handled : Bool} (hphase : s.phase = .broadcast key j handled) :
    Inv keys { s with
      phase := .waiting key j handled .empty none
      inbox := Function.update s.inbox j
        (s.inbox j ++ [(key.filters j, keyRequest e.platform key.toKey)]) } := by
  obtain ⟨done, hkeys, hmarked, hdirect, hclients⟩ := h
  rw [hphase] at hkeys hmarked
  refine ⟨done, hkeys, hmarked.2, hdirect, ?_⟩
  intro i
  by_cases hij : i = j
  · subst hij
    obtain ⟨hidle, hrequests, hresponses, queue, hq, heq⟩ := hclients i
    rw [hphase] at hq heq
    have hnil : queue = [] := hq
    subst hnil
    refine .of_parts (Function.update_self ..) rfl rfl rfl (q := [])
      (a := done ++ [key]) ?_ ?_ hidle ?_ hresponses ?_
    · rw [Phase.Queue, if_pos rfl]
      exact NodeHeap.isQueue_nil _
    · rw [Phase.asked, if_pos (Nat.le_refl _)]
    · intro r hmem
      rcases List.mem_append.mp hmem with hmem | hmem
      · exact hrequests r hmem
      · exact ⟨key, List.mem_singleton.mp hmem⟩
    · rw [Phase.asked, if_neg (Nat.lt_irrefl _), List.append_nil] at heq
      rw [List.flatMap_append, ← List.append_assoc, heq]
      simp
  · refine (hclients i).frame (Function.update_of_ne hij _ _) rfl rfl rfl rfl ?_ ?_
    · rw [hphase]
      intro queue hq
      rw [Phase.Queue, if_neg hij]
      exact hq
    · have hne : i.val ≠ j.val := fun heq => hij (Fin.ext heq)
      rw [hphase]
      simp only [Phase.asked, show i.val ≤ j.val ↔ i.val < j.val by omega]

theorem inv_queueMessage {s : System e n} (h : Inv keys s) {key : TypedKey n} {j : Fin n}
    {handled : Bool} {heap heap' : NodeHeap FepControlMessage} {messages messages' : Option Nat}
    {message : FepControlMessage} {rest : List FepControlMessage}
    (hphase : s.phase = .waiting key j handled heap messages)
    (hchannel : s.channel j = message :: rest)
    (happend : appendControlMessage heap messages message = .ok (heap', messages')) :
    Inv keys { s with
      phase := .waiting key j handled heap' messages'
      channel := Function.update s.channel j rest } := by
  obtain ⟨done, hkeys, hmarked, hdirect, hclients⟩ := h
  rw [hphase] at hkeys hmarked
  refine ⟨done, hkeys, hmarked, hdirect, ?_⟩
  intro i
  by_cases hij : i = j
  · subst hij
    obtain ⟨hidle, hrequests, hresponses, queue, hq, heq⟩ := hclients i
    rw [hphase] at hq heq
    rw [Phase.Queue, if_pos rfl] at hq
    rw [hchannel] at heq hresponses
    -- the message goes from the socket to the end of the queue
    obtain ⟨heap₁, messages₁, happend₁, hq₁⟩ := fepListAppend_isQueue hq message
    obtain ⟨rfl, rfl⟩ := Prod.mk.inj (Except.ok.inj (happend₁.symm.trans happend))
    refine .of_parts rfl rfl (Function.update_self ..) rfl (q := queue ++ [message]) ?_ rfl
      hidle hrequests (fun m hm => hresponses m (List.mem_cons_of_mem _ hm)) ?_
    · rw [Phase.Queue, if_pos rfl]
      exact hq₁
    · refine Eq.trans ?_ heq
      rw [dataOf_cons message rest]
      simp
  · refine (hclients i).frame rfl rfl rfl (Function.update_of_ne hij _ _) rfl ?_ ?_
    · rw [hphase]
      intro queue hq
      rw [Phase.Queue, if_neg hij] at hq ⊢
      exact hq
    · rw [hphase]
      rfl

theorem inv_takeResponse {s : System e n} (h : Inv keys s) {key : TypedKey n} {j : Fin n}
    {handled : Bool} {heap heap' : NodeHeap FepControlMessage} {messages : Option Nat}
    {message : FepControlMessage} {rest : List FepControlMessage} {retval : Int}
    {fep' : Fep e.locale} {pty' : Pty n} (hphase : s.phase = .waiting key j handled heap messages)
    (hchannel : s.channel j = message :: rest) (hcommand : message.command = .response)
    (hcheck : checkResponse e.platform (keyRequest e.platform key.toKey) message = .ok retval)
    (hflush : flushMessages (handleMessage j) heap messages (s.fep, s.pty) =
      .ok (heap', fep', pty')) :
    Inv keys { s with
      phase := .broadcast key (j + 1) (handled || decide (retval = 0))
      fep := fep'
      pty := pty'
      channel := Function.update s.channel j rest } := by
  obtain ⟨done, hkeys, -, hdirect, hclients⟩ := h
  rw [hphase] at hkeys
  -- the queue of client `j` is flushed to the pty
  obtain ⟨hidle, hrequests, hresponses, queue, hq, heq⟩ := hclients j
  rw [hphase] at hq heq
  rw [Phase.Queue, if_pos rfl] at hq
  rw [hchannel] at heq hresponses
  obtain ⟨hself, hother⟩ := writtenBy_foldlM_handleMessage (flushMessages_ok hq hflush)
  have haccept : retval = 0 := by
    rw [checkResponse_keyRequest e.platform key.toKey
      (hresponses message List.mem_cons_self hcommand)] at hcheck
    exact (Except.ok.inj hcheck).symm
  refine ⟨done, hkeys, ⟨j.isLt, fun _ => by simp [haccept]⟩, ?_, ?_⟩
  · exact (hother none (by simp)).trans hdirect
  intro i
  by_cases hij : i = j
  · subst hij
    refine .of_parts rfl rfl (Function.update_self ..) hself (q := []) rfl rfl
      hidle hrequests (fun m hm => hresponses m (List.mem_cons_of_mem _ hm)) ?_
    -- the response itself writes nothing
    have hdata : dataOf e [message] = [] := dataOf_response hcommand
    rw [dataOf_cons message rest, hdata, List.nil_append] at heq
    rw [dataOf_nil, List.append_nil, heq]
    simp [Phase.asked]
  · refine (hclients i).frame rfl rfl rfl (Function.update_of_ne hij _ _)
      (hother (some i) (by simpa using hij)) ?_ ?_
    · rw [hphase]
      intro queue hq
      rw [Phase.Queue, if_neg hij] at hq
      exact hq
    · rw [hphase]
      simp only [Phase.asked, Nat.lt_succ_iff]

theorem inv_finishKey (hn : 0 < n) {s : System e n} (h : Inv keys s) {key : TypedKey n}
    {handled : Bool} (hphase : s.phase = .broadcast key n handled) :
    Inv keys { s with
      phase := .idle
      pty := if handled then s.pty else s.pty ++ [(none, key.source)] } := by
  obtain ⟨done, hkeys, hmarked, hdirect, hclients⟩ := h
  rw [hphase] at hkeys hmarked
  -- there is a client, and its response has marked the key
  have hhandled : handled = true := hmarked.2 hn
  subst hhandled
  refine ⟨done ++ [key], ?_, trivial, hdirect, ?_⟩
  · rw [hkeys]
    simp [Phase.current]
  · intro i
    refine (hclients i).frame rfl rfl rfl rfl rfl ?_ ?_
    · rw [hphase]
      exact fun queue hq => hq
    · rw [hphase]
      simp [Phase.asked]

theorem inv_readMessage {s : System e n} (h : Inv keys s) {j : Fin n}
    {message : FepControlMessage} {rest : List FepControlMessage} {fep' : Fep e.locale} {pty' : Pty n}
    (hphase : s.phase = .idle) (hchannel : s.channel j = message :: rest)
    (hhandle : handleMessage j (s.fep, s.pty) message = .ok (fep', pty')) :
    Inv keys { s with
      fep := fep'
      pty := pty'
      channel := Function.update s.channel j rest } := by
  obtain ⟨done, hkeys, hmarked, hdirect, hclients⟩ := h
  obtain ⟨hself, hother⟩ := writtenBy_handleMessage hhandle
  refine ⟨done, hkeys, hmarked, ?_, ?_⟩
  · exact (hother none (by simp)).trans hdirect
  intro i
  by_cases hij : i = j
  · subst hij
    obtain ⟨hidle, hrequests, hresponses, queue, hq, heq⟩ := hclients i
    -- an idle server has queued nothing, and hands the message on at once
    have hnil : queue = [] := by
      rw [hphase] at hq
      exact hq
    subst hnil
    rw [hchannel] at heq hresponses
    refine .of_parts rfl rfl (Function.update_self ..) hself hq rfl
      hidle hrequests (fun m hm => hresponses m (List.mem_cons_of_mem _ hm)) ?_
    refine Eq.trans ?_ heq
    rw [dataOf_cons message rest]
    simp
  · exact (hclients i).frame rfl rfl rfl (Function.update_of_ne hij _ _)
      (hother (some i) (by simpa using hij)) (fun _ hq => hq) rfl

theorem inv_dispatch {s : System e n} (h : Inv keys s) {j : Fin n}
    {filter : Option FepEventFilter} {request : FepControlMessage}
    {rest : List (Option FepEventFilter × FepControlMessage)} {retval : Int}
    {client' : FepClient} (hinbox : s.inbox j = (filter, request) :: rest)
    (houtbox : s.outbox j = [])
    (hrun : dispatchRequest e.platform filter (s.client j) request = .ok (retval, client')) :
    Inv keys { s with
      inbox := Function.update s.inbox j rest
      client := Function.update s.client j client'
      outbox := Function.update s.outbox j
        (client'.written.drop (s.client j).written.length) } := by
  obtain ⟨done, hkeys, hmarked, hdirect, hclients⟩ := h
  refine ⟨done, hkeys, hmarked, hdirect, ?_⟩
  intro i
  by_cases hij : i = j
  · subst hij
    obtain ⟨hidle, hrequests, hresponses, queue, hq, heq⟩ := hclients i
    rw [hinbox] at hrequests heq
    rw [houtbox] at hresponses heq
    obtain ⟨key, hkey⟩ := hrequests _ List.mem_cons_self
    obtain ⟨rfl, rfl⟩ := Prod.mk.inj hkey
    -- the dispatch writes the answer to the key
    obtain ⟨client₁, hrun₁, hidle₁, hwrote⟩ :=
      dispatchRequest_spec e.platform (key.filters i) hidle
        (validRequest_keyRequest e.platform key.toKey)
    obtain ⟨-, rfl⟩ := Prod.mk.inj (Except.ok.inj (hrun₁.symm.trans hrun))
    have hnew : client₁.written.drop (s.client i).written.length =
        expectedMessages e.platform (key.filters i) (keyRequest e.platform key.toKey) := by
      rw [hwrote.written, List.drop_left]
    refine .of_parts (Function.update_self ..) ((Function.update_self ..).trans hnew) rfl rfl hq rfl
      ?_ (fun r hr => hrequests r (List.mem_cons_of_mem _ hr)) ?_ ?_
    · show Idle (Function.update s.client i client₁ i)
      rw [Function.update_self]
      exact hidle₁
    · intro message hmem hcommand
      rcases List.mem_append.mp hmem with hmem | hmem
      · exact hresponses message (List.mem_append_left _ hmem) hcommand
      · exact head?_args_of_mem_expectedMessages e.platform (key.filters i) key.toKey message hmem
          hcommand
    · refine Eq.trans ?_ heq
      simp [answeredData]
  · exact (hclients i).frame (Function.update_of_ne hij _ _) (Function.update_of_ne hij _ _)
      (Function.update_of_ne hij _ _) rfl rfl (fun _ hq => hq) rfl

theorem inv_deliver {s : System e n} (h : Inv keys s) {j : Fin n}
    {message : FepControlMessage} {rest : List FepControlMessage}
    (houtbox : s.outbox j = message :: rest) :
    Inv keys { s with
      outbox := Function.update s.outbox j rest
      channel := Function.update s.channel j (s.channel j ++ [message]) } := by
  obtain ⟨done, hkeys, hmarked, hdirect, hclients⟩ := h
  refine ⟨done, hkeys, hmarked, hdirect, ?_⟩
  intro i
  by_cases hij : i = j
  · subst hij
    obtain ⟨hidle, hrequests, hresponses, queue, hq, heq⟩ := hclients i
    rw [houtbox] at hresponses heq
    refine .of_parts rfl (Function.update_self ..) (Function.update_self ..) rfl hq rfl hidle
      hrequests ?_ ?_
    · intro m hm
      exact hresponses m (by simpa using hm)
    · refine Eq.trans ?_ heq
      rw [dataOf_cons message rest]
      simp
  · exact (hclients i).frame rfl rfl (Function.update_of_ne hij _ _)
      (Function.update_of_ne hij _ _) rfl (fun _ hq => hq) rfl

theorem step_inv (hn : 0 < n) {s s' : System e n} (h : Inv keys s)
    (hstep : Step s s') : Inv keys s' := by
  cases hstep with
  | readKey hphase htyped => exact inv_readKey h hphase htyped
  | sendRequest hphase => exact inv_sendRequest h hphase
  | queueMessage hphase hchannel hread hcommand happend =>
    exact inv_queueMessage h hphase hchannel happend
  | takeResponse hphase hchannel hread hcommand hcheck hflush =>
    exact inv_takeResponse h hphase hchannel hcommand hcheck hflush
  | finishKey hphase => exact inv_finishKey hn h hphase
  | readMessage hphase hchannel hread hhandle => exact inv_readMessage h hphase hchannel hhandle
  | dispatch hinbox houtbox hread hrun => exact inv_dispatch h hinbox houtbox hrun
  | deliver houtbox => exact inv_deliver h houtbox

/-- The child's output leaves the messages alone. -/
theorem echo_inv {s s' : System e n} (h : Inv keys s) (hecho : Echo s s') : Inv keys s' := by
  obtain ⟨done, hkeys, hmarked, hdirect, hclients⟩ := h
  cases hecho with
  | childOutput hphase hlen hrun =>
    exact ⟨done, hkeys, hmarked, hdirect, fun i =>
      (hclients i).frame rfl rfl rfl rfl rfl (fun _ hq => hq) rfl⟩

theorem inv_of_reachable (hn : 0 < n) {s : System e n} (h : Reachable keys s) :
    Inv keys s := by
  obtain ⟨s₀, hstarts, hruns⟩ := h
  induction hruns with
  | refl =>
    obtain ⟨fep, -, rfl⟩ := hstarts.started
    exact inv_start fep keys
  | tail _ hstep ih => exact hstep.elim (step_inv hn ih) (echo_inv ih)

/-! ## The pty at rest -/

/-- The elements with a key of the list, sorted by key. -/
theorem perm_flatMap_filter {α κ : Type} [DecidableEq κ] (f : α → κ) (l : List α) {ks : List κ}
    (hnodup : ks.Nodup) :
    (l.filter fun a => decide (f a ∈ ks)).Perm
      (ks.flatMap fun k => l.filter fun a => decide (f a = k)) := by
  induction ks with
  | nil => simp
  | cons k ks ih =>
    obtain ⟨hnot, hnodup⟩ := List.nodup_cons.mp hnodup
    have hsplit := List.filter_append_perm (fun a => decide (f a = k))
      (l.filter fun a => decide (f a ∈ k :: ks))
    -- split by the first key, and then by the others
    have hself : (l.filter fun a => decide (f a ∈ k :: ks)).filter (fun a => decide (f a = k)) =
        l.filter fun a => decide (f a = k) := by
      rw [List.filter_filter]
      apply List.filter_congr
      intro a _
      by_cases hk : f a = k <;> simp [hk]
    have hrest : (l.filter fun a => decide (f a ∈ k :: ks)).filter (fun a => !decide (f a = k)) =
        l.filter fun a => decide (f a ∈ ks) := by
      rw [List.filter_filter]
      apply List.filter_congr
      intro a _
      by_cases hk : f a = k
      · simp [hk, hnot]
      · simp [hk]
    rw [hself, hrest] at hsplit
    exact hsplit.symm.trans (List.Perm.append_left _ (ih hnodup))

/-- The pty, sorted by who has written what. -/
theorem perm_writtenBy (pty : Pty n) :
    (pty.map (·.2)).Perm (Pty.writtenBy none pty ++
      (List.finRange n).flatMap fun i => Pty.writtenBy (some i) pty) := by
  have hnodup : (none :: (List.finRange n).map some).Nodup := by
    rw [List.nodup_cons]
    exact ⟨by simp, (List.nodup_finRange n).map (Option.some_injective _)⟩
  have hperm := (perm_flatMap_filter (·.1) pty hnodup).map (·.2)
  rw [List.filter_eq_self.mpr (by rintro ⟨o, bytes⟩ -; cases o <;> simp)] at hperm
  simpa [Pty.writtenBy, List.map_flatMap, List.flatMap_map] using hperm

/-- The requests that the filter of client `i` makes when it sees the key. -/
def requestsFor (i : Fin n) (key : TypedKey n) : List ClientRequest :=
  (key.filters i).elim [] fun f => (f key.event).1

def requestedData (e : Setting) (i : Fin n) (key : TypedKey n) : List (List UInt8) :=
  (requestsFor i key).flatMap (requestOutput e)

/-- Client `i` handles the key: its filter returns another value than 0. -/
def HandlesKey (i : Fin n) (key : TypedKey n) : Prop :=
  ∃ f ∈ key.filters i, (f key.event).2 ≠ 0

instance (i : Fin n) (key : TypedKey n) : Decidable (HandlesKey i key) :=
  match h : key.filters i with
  | none => .isFalse (by simp [HandlesKey, h])
  | some f => decidable_of_iff ((f key.event).2 ≠ 0) (by simp [HandlesKey, h])

theorem handles_keyRequest_iff (p : Platform) (i : Fin n) (key : TypedKey n) :
    Handles p (key.filters i) (keyRequest p key.toKey) ↔ HandlesKey i key := by
  rw [Handles, requestEvent_keyRequest, HandlesKey]

theorem dataOf_requestedMessages (i : Fin n) (key : TypedKey n) :
    dataOf e (requestedMessages e.platform (key.filters i) (keyRequest e.platform key.toKey)) =
      requestedData e i key := by
  unfold requestedData requestsFor requestedMessages
  cases key.filters i with
  | none => rfl
  | some f =>
    show dataOf e ((f (requestEvent e.platform (keyRequest e.platform key.toKey))).1.map _) = _
    rw [requestEvent_keyRequest, dataOf, List.flatMap_map]
    simp only [ptyOutput_message]
    rfl

theorem answeredData_keyRequest (e : Setting) (i : Fin n) (key : TypedKey n) :
    answeredData e (key.filters i) (keyRequest e.platform key.toKey) =
      requestedData e i key ++ if HandlesKey i key then [] else [key.source] := by
  have hresponse :
      dataOf e [expectedResponse e.platform (key.filters i) (keyRequest e.platform key.toKey)] = [] :=
    dataOf_response rfl
  have hback : dataOf e (sentBack e.platform (key.filters i) (keyRequest e.platform key.toKey)) =
      if HandlesKey i key then [] else [key.source] := by
    have hiff := handles_keyRequest_iff e.platform i key
    by_cases h : HandlesKey i key
    · rw [sentBack, if_neg (fun hboth => hboth.2 (hiff.mpr h)), if_pos h]
      rfl
    · rw [sentBack, if_pos ⟨rfl, mt hiff.mp h⟩, if_neg h]
      rfl
  rw [answeredData, expectedMessages, dataOf_cons, dataOf_append, hresponse, hback,
    dataOf_requestedMessages]
  rfl

/-- The keys that client `i` sends back. -/
def returnedBy (i : Fin n) (keys : List (TypedKey n)) : List (List UInt8) :=
  (keys.filter fun key => ¬ HandlesKey i key).map (·.source)

/-- All the data that the filters have asked for. -/
def allRequestedData (e : Setting) (keys : List (TypedKey n)) : List (List UInt8) :=
  (List.finRange n).flatMap fun i => keys.flatMap (requestedData e i)

/-- What a client has written at rest, sorted into what was asked for and what was sent back. -/
theorem answeredData_perm (e : Setting) (i : Fin n) (keys : List (TypedKey n)) :
    (keys.flatMap fun key => answeredData e (key.filters i) (keyRequest e.platform key.toKey)).Perm
      (keys.flatMap (requestedData e i) ++ returnedBy i keys) := by
  have hreturned : returnedBy i keys =
      keys.flatMap fun key => if HandlesKey i key then [] else [key.source] := by
    unfold returnedBy
    induction keys with
    | nil => rfl
    | cons key keys ih =>
      by_cases h : HandlesKey i key <;> simp_all
  simp only [answeredData_keyRequest, hreturned]
  exact (List.flatMap_append_perm keys _ _).symm

/-- **The pty at rest** holds the data that the filters have asked for and the keys that each of the
clients has sent back. -/
theorem pty_perm_of_atRest (hn : 0 < n) {s : System e n} (h : Reachable keys s)
    (hrest : AtRest s) :
    (s.pty.map (·.2)).Perm (allRequestedData e keys ++
      (List.finRange n).flatMap fun i => returnedBy i keys) := by
  obtain ⟨done, hkeys, -, hdirect, hclients⟩ := inv_of_reachable hn h
  rw [hrest.phase, hrest.typed] at hkeys
  have hdone : done = keys := by simpa [Phase.current] using hkeys.symm
  -- at rest nothing is queued, in flight or still to come
  have hwritten (i : Fin n) : Pty.writtenBy (some i) s.pty =
      keys.flatMap fun key => answeredData e (key.filters i) (keyRequest e.platform key.toKey) := by
    obtain ⟨-, -, -, queue, hq, heq⟩ := hclients i
    rw [hrest.phase] at hq heq
    have hnil : queue = [] := hq
    subst hnil
    rw [hrest.inbox, hrest.outbox, hrest.channel, hdone] at heq
    simpa [Phase.asked] using heq
  refine (perm_writtenBy s.pty).trans ?_
  rw [hdirect, List.nil_append]
  simp only [hwritten]
  refine (List.Perm.flatMap_left _ fun i _ => answeredData_perm e i keys).trans ?_
  exact (List.flatMap_append_perm _ _ _).symm

/-! ## Delivery -/

/-- No client handles the key. -/
def Unhandled (key : TypedKey n) : Prop := ∀ i, ¬ HandlesKey i key

instance (key : TypedKey n) : Decidable (Unhandled key) :=
  inferInstanceAs (Decidable (∀ i, ¬ HandlesKey i key))

/-- The pty has received the source bytes of each key that no client handles once, those of the
other keys never, and besides only what the filters have asked for. -/
def Delivered (e : Setting) (keys : List (TypedKey n)) (s : System e n) : Prop :=
  (s.pty.map (·.2)).Perm (allRequestedData e keys ++
    (keys.filter fun key => Unhandled key).map (·.source))

/-- Each client sends back at least the keys that nobody handles. -/
theorem length_unhandled_le (keys : List (TypedKey n)) (i : Fin n) :
    ((keys.filter fun key => Unhandled key).map (·.source)).length ≤
      (returnedBy i keys).length := by
  rw [returnedBy, List.length_map, List.length_map, ← List.countP_eq_length_filter,
    ← List.countP_eq_length_filter]
  apply List.countP_mono_left
  intro key _ h
  simpa using (of_decide_eq_true h : Unhandled key) i

/-- The keys sent back are those that nobody handles exactly when there is one client or none is
sent back at all. -/
theorem returned_perm_iff (hn : 0 < n) (keys : List (TypedKey n)) :
    ((List.finRange n).flatMap fun i => returnedBy i keys).Perm
        ((keys.filter fun key => Unhandled key).map (·.source)) ↔
      n = 1 ∨ ∀ key ∈ keys, ∀ i, HandlesKey i key := by
  constructor
  · intro hperm
    by_contra hcon
    obtain ⟨hne, hsome⟩ := not_or.mp hcon
    push Not at hsome
    obtain ⟨key, hkey, i, hi⟩ := hsome
    have hlen := hperm.length_eq
    rw [List.length_flatMap] at hlen
    obtain ⟨u, hu⟩ : ∃ u,
      u = ((keys.filter fun key => Unhandled key).map (·.source)).length := ⟨_, rfl⟩
    obtain ⟨lens, hlens⟩ : ∃ lens : List Nat,
      lens = (List.finRange n).map fun i => (returnedBy i keys).length := ⟨_, rfl⟩
    rw [← hu, ← hlens] at hlen
    -- with two clients or more, a key that nobody handles is sent back twice
    have hlower : n * u ≤ lens.sum := by
      have hall : ∀ x ∈ lens, u ≤ x := by
        intro x hx
        rw [hlens] at hx
        obtain ⟨i, -, rfl⟩ := List.mem_map.mp hx
        exact hu ▸ length_unhandled_le keys i
      have hcard := List.card_nsmul_le_sum lens u hall
      rwa [hlens, List.length_map, List.length_finRange, ← hlens, smul_eq_mul] at hcard
    -- and the key that client `i` does not handle is sent back at all
    have hpos : 0 < lens.sum := by
      have hmem : (returnedBy i keys).length ∈ lens := by
        rw [hlens]
        exact List.mem_map_of_mem (List.mem_finRange i)
      have hback : 0 < (returnedBy i keys).length := by
        rw [returnedBy, List.length_map]
        exact List.length_pos_of_mem (List.mem_filter.mpr ⟨hkey, by simpa using hi⟩)
      exact Nat.lt_of_lt_of_le hback (List.le_sum_of_mem hmem)
    have hn2 : 2 * u ≤ n * u := Nat.mul_le_mul_right u (by omega)
    omega
  · rintro (rfl | hall)
    -- the only client sends back what it does not handle, which nobody does
    · rw [show List.finRange 1 = [0] from rfl, List.flatMap_singleton, returnedBy]
      refine List.Perm.of_eq (congrArg _ (List.filter_congr ?_))
      intro key _
      simp [Unhandled, Fin.forall_fin_one]
    -- nothing is sent back, and there is nothing that nobody handles
    · have hnone : ∀ i, returnedBy i keys = [] := by
        intro i
        rw [returnedBy, List.map_eq_nil_iff, List.filter_eq_nil_iff]
        intro key hkey
        simpa using hall key hkey i
      have hunhandled : (keys.filter fun key => Unhandled key) = [] := by
        rw [List.filter_eq_nil_iff]
        intro key hkey hdec
        exact (of_decide_eq_true hdec : Unhandled key) ⟨0, hn⟩ (hall key hkey ⟨0, hn⟩)
      simp [hnone, hunhandled]

/-- Whatever the order of the steps, at rest the keys have been delivered as they should exactly
when there is one client or every client handles every key. -/
theorem delivered_iff_of_atRest (hn : 0 < n) {s : System e n} (h : Reachable keys s)
    (hrest : AtRest s) :
    Delivered e keys s ↔ n = 1 ∨ ∀ key ∈ keys, ∀ i, HandlesKey i key := by
  have hpty := pty_perm_of_atRest hn h hrest
  rw [← returned_perm_iff hn keys, Delivered]
  constructor
  · intro hdel
    exact (List.perm_append_left_iff _).mp (hpty.symm.trans hdel)
  · intro hperm
    exact hpty.trans (List.Perm.append_left _ hperm)

end LibFep
