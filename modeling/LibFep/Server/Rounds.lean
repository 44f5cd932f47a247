import LibFep.Lib.Sweep
import LibFep.Server.ClientRuns

/-!
# LibFep — the rounds of `main_loop`

Each round of `main_loop` waits in `pselect`, sends the keys that have been typed, accepts a client and
reads one message from each client that `pselect` has reported. A client that has been sent a key is taken
out of the set before. The table and its steps are those of `Server/ClientRuns`.

The reads are those of the loop over the control sockets. Sending a key reads as well, up to the RESPONSE in
`_fep_transceive_control_message`, and does wait for the client.

* **`mainLoopRound_sweep`** — a round that uses the table as it is meant to is a sweep over the clients that
  are connected.
* **`rounds_serve`** — no read of that loop has to wait for its client, and no client has to wait for more
  rounds than clients have been connected before it.
-/

namespace LibFep

open Lib

/-! ## One round -/

/-- What the server finds when `pselect` reports descriptors. -/
structure Wakeup where
  /-- The clients that have sent something or have gone. -/
  readable : BitVec 32 → Bool
  /-- The number of keys read from the terminal. -/
  keys : Nat
  /-- What `accept` returns, if a client waits for it. -/
  waiting : Option (BitVec 32)
  /-- Whether reading a message from a client succeeds. -/
  succeeds : BitVec 32 → Bool

inductive RoundInput where
  /-- `pselect` is interrupted by a signal, perhaps that of a window change. -/
  | signal (winch : Bool)
  | wakeup (w : Wakeup)

structure Round where
  /-- The clients that a key or a window change has been sent to. -/
  asked : List (BitVec 32)
  /-- The clients that a message has been read from, each with its index. -/
  reads : List (Nat × BitVec 32)
  after : ServerState

/-- The clients in `fds` after `_fep_pselect`. -/
def fepPselect (t : ClientTable) (readable : BitVec 32 → Bool) : Except Fault (List (BitVec 32)) := do
  let clients ← clientsUsed t
  return clients.filter fun fd => !fd.msb && readable fd

/-- A key is sent to all clients, which are then cleared from `fds`. -/
def sendKeyToClients (t : ClientTable) (fds : List (BitVec 32)) :
    Except Fault (List (BitVec 32) × List (BitVec 32)) := do
  let clients ← clientsUsed t
  let asked := clients.filter fun fd => !fd.msb
  return (asked, fds.filter fun fd => !asked.contains fd)

def sendKeysToClients (t : ClientTable) :
    Nat → List (BitVec 32) → Except Fault (List (BitVec 32) × List (BitVec 32))
  | 0, fds => return ([], fds)
  | keys + 1, fds => do
    let (asked, fds) ← sendKeyToClients t fds
    let (more, fds) ← sendKeysToClients t keys fds
    return (asked ++ more, fds)

/-- The loop over the control sockets, from index `i` on. It comes to no more than `left` of them. -/
def readClients (p : Platform) (fds : List (BitVec 32)) (succeeds : BitVec 32 → Bool) :
    Nat → Nat → ServerState → Except Fault (List (Nat × BitVec 32) × ServerState)
  | 0, _, s => return ([], s)
  | left + 1, i, s => do
    if s.table.nClients ≤ i then return ([], s)
    let fd ← s.table.readClient i
    if !fd.msb && fds.contains fd then
      let s ← serverStep p s (.readClient i (succeeds fd))
      let (reads, s) ← readClients p fds succeeds left (i + 1) s
      return ((i, fd) :: reads, s)
    else readClients p fds succeeds left (i + 1) s

def acceptWaiting (p : Platform) (s : ServerState) : Option (BitVec 32) → Except Fault ServerState
  | some fd => serverStep p s (.accept fd)
  | none => .ok s

/-- The clients that `handle_winch_signal` sends the size to. -/
def resizedClients (t : ClientTable) (winch : Bool) : Except Fault (List (BitVec 32)) :=
  if winch then clientsUsed t else .ok []

def mainLoopRound (p : Platform) (s : ServerState) : RoundInput → Except Fault Round
  | .signal winch => do
    let asked ← resizedClients s.table winch
    return ⟨asked, [], s⟩
  | .wakeup w => do
    let fds ← fepPselect s.table w.readable
    let (asked, fds) ← sendKeysToClients s.table w.keys fds
    let s ← acceptWaiting p s w.waiting
    let (reads, s) ← readClients p fds w.succeeds s.table.nClients 0 s
    return ⟨asked, reads, s⟩

def mainLoopRounds (p : Platform) : ServerState → List RoundInput → Except Fault (List Round)
  | _, [] => return []
  | s, input :: inputs => do
    let round ← mainLoopRound p s input
    let rounds ← mainLoopRounds p round.after inputs
    return round :: rounds

/-! ## What is assumed of a round -/

def RoundInput.waiting : RoundInput → Option (BitVec 32)
  | .signal _ => none
  | .wakeup w => w.waiting

/-- The steps on the table that a round ends with. -/
def readOps (reads : List (Nat × BitVec 32)) (succeeds : BitVec 32 → Bool) : List ServerOp :=
  reads.map fun read => .readClient read.1 (succeeds read.2)

def RoundInput.ops (reads : List (Nat × BitVec 32)) : RoundInput → List ServerOp
  | .signal _ => []
  | .wakeup w => w.waiting.toList.map .accept ++ readOps reads w.succeeds

/-- The client accepted finds room, and the clients removed can be removed. -/
structure RoundRight (p : Platform) (s : ServerState) (input : RoundInput) : Prop where
  accepts : ∀ fd ∈ input.waiting, AcceptsFresh (.ok s) (.accept fd)
  removes : ∀ round, mainLoopRound p s input = .ok round →
    ∀ x ∈ transitions (serverRunStep p) (.ok s) (input.ops round.reads), RemovesRemovable p x.1 x.2

def RoundsRight (p : Platform) : ServerState → List RoundInput → Prop
  | _, [] => True
  | s, input :: inputs => RoundRight p s input ∧
      ∀ round, mainLoopRound p s input = .ok round → RoundsRight p round.after inputs

/-! ## The clients used -/

theorem mapM_readClient {t : ClientTable} {is : List Nat} {fds : List (BitVec 32)}
    (h : List.Forall₂ (fun i fd => t.clients[i]? = some fd) is fds) :
    is.mapM t.readClient = .ok fds := by
  induction h with
  | nil => rfl
  | cons hfd _ ih =>
    rw [List.mapM_cons, ClientTable.readClient, hfd, ih]
    rfl

theorem Holds.clientsUsed_eq {s : ServerState} (hs : Holds s) :
    clientsUsed s.table = .ok s.connected := by
  apply mapM_readClient
  rw [List.forall₂_iff_get]
  refine ⟨by rw [List.length_range, hs.1], fun i hi hi' => ?_⟩
  have hi'' : i < s.table.nClients := by rwa [List.length_range] at hi
  rw [List.get_eq_getElem, List.get_eq_getElem, List.getElem_range, hs.getElem? hi'']
  exact List.getElem?_eq_getElem hi'

theorem Holds.filter_connected {s : ServerState} (hs : Holds s) (keep : BitVec 32 → Bool) :
    (s.connected.filter fun fd => !fd.msb && keep fd) = s.connected.filter keep := by
  apply List.filter_congr
  intro fd hfd
  rw [hs.2.2.2 fd hfd]
  rfl

theorem Holds.fepPselect_eq {s : ServerState} (hs : Holds s) (readable : BitVec 32 → Bool) :
    fepPselect s.table readable = .ok (s.connected.filter readable) := by
  rw [fepPselect, hs.clientsUsed_eq, ok_bind, hs.filter_connected]
  rfl

/-- A client that has been sent a key is not read from. -/
theorem Holds.sendKeysToClients_eq {s : ServerState} (hs : Holds s) (keys : Nat)
    {fds : List (BitVec 32)} (hfds : ∀ fd ∈ fds, fd ∈ s.connected) :
    ∃ asked, sendKeysToClients s.table keys fds = .ok (asked, if keys = 0 then fds else []) := by
  have hkey (fds : List (BitVec 32)) (hfds : ∀ fd ∈ fds, fd ∈ s.connected) :
      sendKeyToClients s.table fds = .ok (s.connected, []) := by
    have hasked : (s.connected.filter fun fd => !fd.msb) = s.connected := by
      rw [List.filter_eq_self]
      intro fd hfd
      rw [hs.2.2.2 fd hfd]
      rfl
    have hcleared : (fds.filter fun fd => !s.connected.contains fd) = [] := by
      rw [List.filter_eq_nil_iff]
      intro fd hfd
      simp [hfds fd hfd]
    rw [sendKeyToClients, hs.clientsUsed_eq, ok_bind, hasked]
    show Except.ok (s.connected, fds.filter fun fd => !s.connected.contains fd) = _
    rw [hcleared]
  induction keys generalizing fds with
  | zero => exact ⟨[], rfl⟩
  | succ keys ih =>
    obtain ⟨more, hmore⟩ := ih (List.forall_mem_nil (· ∈ s.connected))
    refine ⟨s.connected ++ more, ?_⟩
    rw [sendKeysToClients, hkey fds hfds, if_neg (Nat.succ_ne_zero keys)]
    show (sendKeysToClients s.table keys [] >>= _) = _
    rw [hmore, ite_self]
    rfl

/-! ## The loop over the control sockets -/

section

variable {p : Platform} {fds : List (BitVec 32)} {succeeds : BitVec 32 → Bool}

/-- The entry of a client that is connected. -/
theorem Holds.entry {s : ServerState} (hs : Holds s) {before rest : List (BitVec 32)}
    {fd : BitVec 32} (hconn : s.connected = before ++ fd :: rest) :
    before.length < s.table.nClients ∧ s.table.clients[before.length]? = some fd ∧
      fd.msb = false := by
  have hi : before.length < s.table.nClients := by
    rw [hs.1, hconn, List.length_append, List.length_cons]
    omega
  refine ⟨hi, ?_, hs.2.2.2 fd (by rw [hconn]; simp)⟩
  rw [hs.getElem? hi, hconn, List.getElem?_append_right (Nat.le_refl _), Nat.sub_self]
  rfl

/-- A removal takes the client out of those connected. -/
theorem Holds.connected_of_removed {s s' : ServerState} (hs : Holds s)
    {before rest : List (BitVec 32)} {fd : BitVec 32} (hconn : s.connected = before ++ fd :: rest)
    (h : serverStep p s (.readClient before.length false) = .ok s') :
    s'.connected = before ++ rest := by
  obtain ⟨hi, hat, hneg⟩ := hs.entry hconn
  have hnot : fd ∉ before := by
    have hnodup := hs.2.2.1
    rw [hconn] at hnodup
    exact fun hmem => List.disjoint_of_nodup_append hnodup hmem List.mem_cons_self
  obtain ⟨t', ht', -⟩ := removeClient_ok p hs.le fd
  rw [serverStep_readClient p false hi hat, hneg, ht'] at h
  obtain rfl := Except.ok.inj h
  show s.connected.erase fd = _
  rw [hconn, List.erase_append_right _ hnot, List.erase_cons_head]

theorem readClients_past {left i : Nat} {s : ServerState} (h : s.table.nClients ≤ i) :
    readClients p fds succeeds left i s = .ok ([], s) := by
  cases left with
  | zero => rfl
  | succ left => exact if_pos h

/-- The loop faults nowhere. -/
theorem readClients_ok (left i : Nat) {s : ServerState} (hn : s.table.nClients ≤ fepMaxClients) :
    ∃ reads s', readClients p fds succeeds left i s = .ok (reads, s') := by
  induction left generalizing i s with
  | zero => exact ⟨[], s, rfl⟩
  | succ left ih =>
    rcases Nat.lt_or_ge i s.table.nClients with hi | hi
    · obtain ⟨fd, hread, hfd⟩ := readClient_ok (t := s.table) (i := i) (by omega)
      rw [readClients, if_neg (by omega), hread, ok_bind]
      split
      · have hbounded : Bounded (serverStep p s (.readClient i (succeeds fd))) :=
          (bounded_serverRunStep_iff p (.ok s) (.readClient i (succeeds fd)) hn).mpr trivial
        cases hstep : serverStep p s (.readClient i (succeeds fd)) with
        | error fault =>
          rw [hstep] at hbounded
          exact hbounded.elim
        | ok s₁ =>
          rw [hstep] at hbounded
          obtain ⟨reads, s', hrest⟩ := ih (i + 1) hbounded
          exact ⟨(i, fd) :: reads, s', by rw [ok_bind, hrest]; rfl⟩
      · exact ih (i + 1) hn
    · exact ⟨[], s, readClients_past hi⟩

/-- **The loop is a sweep** over the clients from its index on, as long as the table is right. -/
theorem readClients_sweep {left : Nat} {s s' : ServerState} (hs : Holds s)
    {before rest : List (BitVec 32)} (hconn : s.connected = before ++ rest)
    (hleft : rest.length ≤ left) {reads : List (Nat × BitVec 32)}
    (hok : readClients p fds succeeds left before.length s = .ok (reads, s'))
    (hgood : ∀ x ∈ transitions (serverRunStep p) (.ok s) (readOps reads succeeds),
      RemovesRemovable p x.1 x.2) :
    Holds s' ∧ reads.map Prod.snd = (sweep fds.contains (fun fd => !succeeds fd) false rest).1 ∧
      s'.connected = before ++ (sweep fds.contains (fun fd => !succeeds fd) false rest).2 := by
  induction left generalizing s before rest reads with
  | zero =>
    obtain rfl := List.length_eq_zero_iff.mp (Nat.le_zero.mp hleft)
    obtain ⟨rfl, rfl⟩ := Prod.mk.inj (Except.ok.inj hok)
    exact ⟨hs, rfl, hconn⟩
  | succ left ih =>
    cases rest with
    | nil =>
      have hn : s.table.nClients ≤ before.length := by
        rw [hs.1, hconn, List.append_nil]
      rw [readClients_past hn] at hok
      obtain ⟨rfl, rfl⟩ := Prod.mk.inj (Except.ok.inj hok)
      exact ⟨hs, rfl, hconn⟩
    | cons fd rest =>
      obtain ⟨hi, hat, hneg⟩ := hs.entry hconn
      have hread : s.table.readClient before.length = .ok fd := by
        rw [ClientTable.readClient, hat]
      have hleft' : rest.length ≤ left := Nat.le_of_succ_le_succ hleft
      -- the loop behind a client that stays at this index
      have hbehind {s₁ : ServerState} {c : BitVec 32} {cs : List (BitVec 32)}
          {reads : List (Nat × BitVec 32)} (hs₁ : Holds s₁) (hconn₁ : s₁.connected = before ++ c :: cs)
          (hcs : cs.length ≤ left)
          (hok : readClients p fds succeeds left (before.length + 1) s₁ = .ok (reads, s'))
          (hgood : ∀ x ∈ transitions (serverRunStep p) (.ok s₁) (readOps reads succeeds),
            RemovesRemovable p x.1 x.2) :
          Holds s' ∧
            reads.map Prod.snd = (sweep fds.contains (fun fd => !succeeds fd) false cs).1 ∧
            s'.connected =
              before ++ c :: (sweep fds.contains (fun fd => !succeeds fd) false cs).2 := by
        have hstart : s₁.connected = (before ++ [c]) ++ cs := by
          rw [hconn₁, List.append_assoc, List.singleton_append]
        obtain ⟨hs', hreads, hstays⟩ := ih hs₁ hstart hcs
          (by rwa [List.length_append, List.length_singleton]) hgood
        exact ⟨hs', hreads, by rw [hstays, List.append_assoc, List.singleton_append]⟩
      rw [readClients, if_neg (by omega), hread, ok_bind, hneg, Bool.not_false, Bool.true_and] at hok
      rw [sweep]
      by_cases hset : fds.contains fd = true
      · rw [if_pos hset] at hok
        obtain ⟨s₁, hstep, hok⟩ := bind_eq_ok.mp hok
        obtain ⟨⟨reads', s₂⟩, hrest, hok⟩ := bind_eq_ok.mp hok
        obtain ⟨rfl, rfl⟩ := Prod.mk.inj (Except.ok.inj hok)
        rw [readOps, List.map_cons, transitions, List.forall_mem_cons] at hgood
        obtain ⟨hremovable, hgood⟩ := hgood
        have hnext : serverRunStep p (.ok s) (.readClient before.length (succeeds fd)) = .ok s₁ :=
          hstep
        rw [hnext] at hgood
        have hs₁ : Holds s₁ := by
          have htable := (hs.readClient_iff p before.length (succeeds fd)).mpr hremovable
          rwa [hstep] at htable
        rw [if_pos hset]
        cases hsucceeds : succeeds fd with
        | true =>
          rw [hsucceeds, serverStep_readClient p true hi hat, Bool.or_true] at hstep
          obtain rfl := Except.ok.inj hstep
          obtain ⟨hs', hreads, hstays⟩ := hbehind hs hconn hleft' hrest hgood
          exact ⟨hs', congrArg (fd :: ·) hreads, hstays⟩
        | false =>
          -- the client is gone, and the one behind it has its index
          rw [hsucceeds] at hstep
          have hconn₁ : s₁.connected = before ++ rest := hs.connected_of_removed hconn hstep
          cases rest with
          | nil =>
            have hn₁ : s₁.table.nClients ≤ before.length + 1 := by
              rw [hs₁.1, hconn₁, List.append_nil]
              exact Nat.le_succ _
            rw [readClients_past hn₁] at hrest
            obtain ⟨rfl, rfl⟩ := Prod.mk.inj (Except.ok.inj hrest)
            exact ⟨hs₁, rfl, hconn₁⟩
          | cons next rest =>
            obtain ⟨hs', hreads, hstays⟩ := hbehind hs₁ hconn₁ (Nat.le_of_succ_le hleft') hrest hgood
            exact ⟨hs', congrArg (fd :: ·) hreads, hstays⟩
      · rw [if_neg hset] at hok
        rw [if_neg hset]
        exact hbehind hs hconn hleft' hok hgood

end

/-! ## A round is a sweep -/

/-- The client is reported by `pselect` and still set when the loop over the sockets comes. -/
def RoundInput.reports : RoundInput → BitVec 32 → Bool
  | .signal _, _ => false
  | .wakeup w, fd => w.keys == 0 && w.readable fd

def RoundInput.fails : RoundInput → BitVec 32 → Bool
  | .signal _, _ => false
  | .wakeup w, fd => !w.succeeds fd

def RoundInput.sweepRound (input : RoundInput) : SweepRound (BitVec 32) where
  isReady := input.reports
  removes := input.fails
  arrived := input.waiting.toList.filter (!·.msb)

theorem Holds.acceptWaiting_ok (p : Platform) {s : ServerState} (hs : Holds s)
    {waiting : Option (BitVec 32)}
    (hfresh : ∀ fd ∈ waiting, AcceptsFresh (.ok s) (.accept fd)) :
    ∃ s', acceptWaiting p s waiting = .ok s' ∧ Holds s' ∧
      s'.connected = s.connected ++ waiting.toList.filter (!·.msb) := by
  cases waiting with
  | none => exact ⟨s, rfl, hs, (List.append_nil _).symm⟩
  | some fd =>
    rw [Option.toList_some, acceptWaiting]
    cases hfd : fd.msb with
    | true =>
      rw [serverStep_accept_failed p hfd, List.filter_cons_of_neg (by simp [hfd])]
      exact ⟨s, rfl, hs, (List.append_nil _).symm⟩
    | false =>
      obtain ⟨hroom, hnew⟩ := hfresh fd rfl hfd
      obtain ⟨t', hstep, hn', hclients⟩ := serverStep_accept_ok p hfd hroom
      rw [hstep, List.filter_cons_of_pos (by simp [hfd])]
      exact ⟨_, rfl, hs.accept hfd hroom hnew hn' hclients, rfl⟩

/-- The steps behind the accept of a round. -/
theorem forall_transitions_behind_accept {p : Platform} {s s' : ServerState}
    {waiting : Option (BitVec 32)} (hok : acceptWaiting p s waiting = .ok s') {ops : List ServerOp}
    {Good : Except Fault ServerState → ServerOp → Prop}
    (h : ∀ x ∈ transitions (serverRunStep p) (.ok s) (waiting.toList.map .accept ++ ops),
      Good x.1 x.2) :
    ∀ x ∈ transitions (serverRunStep p) (.ok s') ops, Good x.1 x.2 := by
  cases waiting with
  | none =>
    obtain rfl := Except.ok.inj hok
    exact h
  | some fd =>
    intro x hx
    have hnext : serverRunStep p (.ok s) (.accept fd) = .ok s' := hok
    exact h x (List.mem_cons_of_mem _ (by rwa [hnext]))

/-- **A round is a sweep** over the clients that are connected. -/
theorem mainLoopRound_sweep {p : Platform} {s : ServerState} (hs : Holds s) {input : RoundInput}
    (hright : RoundRight p s input) :
    ∃ round, mainLoopRound p s input = .ok round ∧ Holds round.after ∧
      round.reads.map Prod.snd = (sweep input.reports input.fails false s.connected).1 ∧
      round.after.connected = input.sweepRound.stays s.connected := by
  cases input with
  | signal winch =>
    obtain ⟨asked, hasked⟩ : ∃ asked, resizedClients s.table winch = .ok asked := by
      cases winch with
      | true => exact ⟨_, hs.clientsUsed_eq⟩
      | false => exact ⟨[], rfl⟩
    have hidle : ∀ c ∈ s.connected, (RoundInput.signal winch).reports c = false := fun _ _ => rfl
    refine ⟨⟨asked, [], s⟩, ?_, hs, ?_, ?_⟩
    · rw [mainLoopRound, hasked]
      rfl
    · rw [sweep_of_none_ready false hidle]
      rfl
    · rw [SweepRound.stays]
      show s.connected = (sweep (RoundInput.signal winch).reports _ false s.connected).2 ++ []
      rw [sweep_of_none_ready false hidle, List.append_nil]
  | wakeup w =>
    obtain ⟨fds, hfds⟩ : ∃ fds, fds = if w.keys = 0 then s.connected.filter w.readable else [] :=
      ⟨_, rfl⟩
    have hreported : ∀ fd ∈ s.connected.filter w.readable, fd ∈ s.connected :=
      fun fd hfd => List.mem_of_mem_filter hfd
    obtain ⟨asked, hkeys⟩ := hs.sendKeysToClients_eq w.keys hreported
    rw [← hfds] at hkeys
    obtain ⟨s₁, haccept, hs₁, hconn₁⟩ := hs.acceptWaiting_ok p hright.accepts
    obtain ⟨reads, s₂, hreads⟩ := @readClients_ok p fds w.succeeds s₁.table.nClients 0 s₁ hs₁.le
    have hround : mainLoopRound p s (.wakeup w) = .ok ⟨asked, reads, s₂⟩ := by
      rw [mainLoopRound, hs.fepPselect_eq, ok_bind, hkeys]
      show (acceptWaiting p s w.waiting >>= _) = _
      rw [show acceptWaiting p s w.waiting = .ok s₁ from haccept, ok_bind, hreads]
      rfl
    have hgood := forall_transitions_behind_accept haccept (hright.removes _ hround)
    have hstart : s₁.connected = [] ++ s₁.connected := rfl
    obtain ⟨hs₂, hserved, hstays⟩ := readClients_sweep hs₁ hstart (Nat.le_of_eq hs₁.1.symm) hreads hgood
    -- the client accepted in this round is not in the set
    have hnew : ∀ fd ∈ (RoundInput.wakeup w).waiting.toList.filter (!·.msb),
        fds.contains fd = false := by
      intro fd hfd
      obtain ⟨hmem, hneg⟩ := List.mem_filter.mp hfd
      obtain ⟨-, hnot⟩ := hright.accepts fd (Option.mem_toList.mp hmem) (by simpa using hneg)
      rw [hfds, ← Bool.not_eq_true, List.contains_iff_mem]
      split
      · exact fun hset => hnot (hreported fd hset)
      · exact List.not_mem_nil
    have hset : ∀ fd ∈ s.connected, fds.contains fd = (RoundInput.wakeup w).reports fd := by
      intro fd hfd
      rw [hfds, RoundInput.reports]
      by_cases hkeys : w.keys = 0
      · simp [hkeys, hfd]
      · simp [hkeys]
    rw [hconn₁, sweep_append false _ hnew, sweep_congr false hset] at hserved hstays
    exact ⟨_, hround, hs₂, hserved, hstays⟩

/-! ## Runs of rounds -/

theorem mainLoopRounds_sweeps {p : Platform} {s : ServerState} (hs : Holds s)
    {inputs : List RoundInput} (hright : RoundsRight p s inputs) :
    ∃ rounds, mainLoopRounds p s inputs = .ok rounds ∧
      rounds.map (·.reads.map Prod.snd) = sweeps s.connected (inputs.map (·.sweepRound)) ∧
      List.Forall₂ (fun input round => (round.reads.map Prod.snd).Nodup ∧
        ∀ fd ∈ round.reads.map Prod.snd, input.reports fd = true) inputs rounds := by
  induction inputs generalizing s with
  | nil => exact ⟨[], rfl, rfl, .nil⟩
  | cons input inputs ih =>
    obtain ⟨hinput, hinputs⟩ := hright
    obtain ⟨round, hround, hafter, hreads, hstays⟩ := mainLoopRound_sweep hs hinput
    obtain ⟨rounds, hrounds, hserved, hall⟩ := ih hafter (hinputs round hround)
    have hsublist : (round.reads.map Prod.snd).Sublist (s.connected.filter input.reports) := by
      rw [hreads]
      exact sweep_served_sublist false s.connected
    refine ⟨round :: rounds, ?_, ?_, .cons ⟨?_, ?_⟩ hall⟩
    · rw [mainLoopRounds, hround, ok_bind, hrounds]
      rfl
    · rw [List.map_cons, List.map_cons, sweeps, hserved, hreads, hstays]
      rfl
    · exact hsublist.nodup (hs.2.2.1.filter _)
    · exact fun fd hfd => (List.mem_filter.mp (hsublist.subset hfd)).2

/-- **Rounds of `main_loop`.** As long as the table is used as it is meant to, the loop over the control
sockets reads from no client twice in a round, or without its having been reported by `pselect`, or after it
has been sent a key in the same round: none of these reads has to wait for a client that has nothing to say.
And a client that is reported in more rounds without a key than clients are connected before it is read from
in one of them. -/
theorem rounds_serve (p : Platform) {s : ServerState} (hs : Holds s) (inputs : List RoundInput)
    (hright : RoundsRight p s inputs) :
    ∃ rounds, mainLoopRounds p s inputs = .ok rounds ∧
      List.Forall₂ (fun input round => (round.reads.map Prod.snd).Nodup ∧
        ∀ fd ∈ round.reads.map Prod.snd, input.reports fd = true) inputs rounds ∧
      ∀ before c behind, s.connected = before ++ c :: behind →
        before.length < (inputs.filter (·.reports c)).length →
        ∃ round ∈ rounds, c ∈ round.reads.map Prod.snd := by
  obtain ⟨rounds, hrounds, hserved, hall⟩ := mainLoopRounds_sweeps hs hright
  refine ⟨rounds, hrounds, hall, fun before c behind hconn hlt => ?_⟩
  have hreported : before.length <
      ((inputs.map (·.sweepRound)).filter (·.isReady c)).length := by
    rw [List.filter_map, List.length_map]
    exact hlt
  obtain ⟨served, hmem, hc⟩ := served_within before c behind _ hreported
  rw [← hconn, ← hserved] at hmem
  obtain ⟨round, hround, rfl⟩ := List.mem_map.mp hmem
  exact ⟨round, hround, hc⟩

/-- Both clients are reported, and the first one has gone. -/
def firstOfTwoGone : RoundInput := .wakeup ⟨fun _ => true, 0, none, fun fd => fd != 4⟩

def twoClients : ServerState where
  table := ⟨[4, 5, -1, -1, -1, -1, -1, -1, -1, -1], 2, rfl⟩
  connected := [4, 5]

theorem holds_twoClients : Holds twoClients := by
  refine ⟨rfl, rfl, by simp [twoClients], ?_⟩
  exact List.forall_mem_cons.mpr ⟨rfl, List.forall_mem_singleton.mpr rfl⟩

def secondOfTwo : ServerState where
  table := ⟨[5, -1, -1, -1, -1, -1, -1, -1, -1, -1], 1, rfl⟩
  connected := [5]

theorem round_firstOfTwoGone : mainLoopRound .x86_64 twoClients firstOfTwoGone =
    .ok ⟨[], [(0, 4)], secondOfTwo⟩ := by
  rfl

theorem round_secondOfTwo : mainLoopRound .x86_64 secondOfTwo firstOfTwoGone =
    .ok ⟨[], [(0, 5)], secondOfTwo⟩ := by
  rfl

theorem roundsRight_firstOfTwoGone :
    RoundsRight .x86_64 twoClients [firstOfTwoGone, firstOfTwoGone] := by
  refine ⟨⟨fun fd hfd => absurd hfd (by simp [firstOfTwoGone, RoundInput.waiting]), ?_⟩, ?_⟩
  · intro round hround
    obtain rfl := Except.ok.inj (round_firstOfTwoGone.symm.trans hround)
    -- the two descriptors differ in their first byte only
    refine List.forall_mem_singleton.mpr fun _ => Or.inr ⟨rfl, fun a b ha hb => ?_⟩
    obtain rfl := Option.some.inj ha
    obtain rfl := Option.some.inj hb
    decide
  · intro round hround
    obtain rfl := Except.ok.inj (round_firstOfTwoGone.symm.trans hround)
    refine ⟨⟨fun fd hfd => absurd hfd (by simp [firstOfTwoGone, RoundInput.waiting]), ?_⟩, ?_⟩
    · intro round hround
      obtain rfl := Except.ok.inj (round_secondOfTwo.symm.trans hround)
      exact List.forall_mem_singleton.mpr trivial
    · exact fun _ _ => trivial

/-- The second client is passed over when the first one goes, and read from in the next round. -/
theorem rounds_serve_firstOfTwoGone :
    ∃ rounds, mainLoopRounds .x86_64 twoClients [firstOfTwoGone, firstOfTwoGone] = .ok rounds ∧
      List.Forall₂ (fun input round => (round.reads.map Prod.snd).Nodup ∧
        ∀ fd ∈ round.reads.map Prod.snd, input.reports fd = true)
        [firstOfTwoGone, firstOfTwoGone] rounds ∧
      ∀ before c behind, twoClients.connected = before ++ c :: behind →
        before.length < ([firstOfTwoGone, firstOfTwoGone].filter (·.reports c)).length →
        ∃ round ∈ rounds, c ∈ round.reads.map Prod.snd :=
  rounds_serve .x86_64 holds_twoClients _ roundsRight_firstOfTwoGone

end LibFep
