import LibFep.Server.ClientTable

/-!
# LibFep — the client table over runs of the server

The steps of `main_loop` that use the client table, in any order, and what the table is worth in
every state of a run.

* **`serverStep`** — one step, next to the list of clients that are connected and not yet closed:
  that list is what the table is meant to hold, and no step looks at it.
* **`bounded_iff_accepts_find_room`** — a run stays inside the array exactly when every accept of
  the run finds room, which `main_loop` does not check.
* **`removed_iff_and_runs_iff`** — the table holds the connected clients throughout a run exactly
  when every removal of the run is one that `Removable` admits.
-/

namespace LibFep

open Lib

structure ServerState where
  table : ClientTable
  /-- The clients that are connected and not yet closed, in the order of their connection. -/
  connected : List (BitVec 32)

inductive ServerOp where
  /-- `accept` returns `fd` (-1 on failure). -/
  | accept (fd : BitVec 32)
  /-- The read loop of `main_loop` is at index `i`; the client is readable, and reading a message
  from it succeeds or fails. -/
  | readClient (i : Nat) (succeeds : Bool)
  /-- A key is broadcast to the clients. -/
  | keyEvent
  /-- A window change is broadcast to the clients. -/
  | windowChange
  /-- `_fep_pselect` collects the descriptors. -/
  | select
  deriving DecidableEq, Repr

/-- The server after `fep_new`. -/
def ServerState.new : ServerState := ⟨ClientTable.new, []⟩

def serverStep (p : Platform) (s : ServerState) : ServerOp → Except Fault ServerState
  | .accept fd => do
    let table ← acceptClient s.table fd
    return ⟨table, if fd.msb then s.connected else s.connected ++ [fd]⟩
  | .readClient i succeeds => do
    -- the loop runs while `i < fep->n_clients`
    if s.table.nClients ≤ i then return s
    let fd ← s.table.readClient i
    if fd.msb || succeeds then return s
    let table ← removeClient p s.table fd
    return ⟨table, s.connected.erase fd⟩
  | .keyEvent | .windowChange | .select => do
    let _ ← clientsUsed s.table
    return s

/-- One step of a run. A fault ends the run. -/
def serverRunStep (p : Platform) (r : Except Fault ServerState) (op : ServerOp) :
    Except Fault ServerState :=
  r.bind (serverStep p · op)

/-! ## Single steps -/

theorem acceptClient_ok {t : ClientTable} {fd : BitVec 32} (hfd : fd.msb = false)
    (hn : t.nClients < fepMaxClients) :
    ∃ t', acceptClient t fd = .ok t' ∧ t'.nClients = t.nClients + 1 ∧
      t'.clients = t.clients.set t.nClients fd := by
  have hwrite : t.writeClient t.nClients fd = .ok
      { t with clients := t.clients.set t.nClients fd,
               length_clients := by simp [t.length_clients] } := by
    rw [ClientTable.writeClient, if_pos hn]
  refine ⟨{ t with
      clients := t.clients.set t.nClients fd
      nClients := t.nClients + 1
      length_clients := by simp [t.length_clients] }, ?_, rfl, rfl⟩
  unfold acceptClient
  rw [hfd, hwrite]
  rfl

theorem acceptClient_full {t : ClientTable} {fd : BitVec 32} (hfd : fd.msb = false)
    (hn : fepMaxClients ≤ t.nClients) : acceptClient t fd = .error .badAccess := by
  have hwrite : t.writeClient t.nClients fd = .error .badAccess := by
    rw [ClientTable.writeClient, if_neg (by omega)]
  unfold acceptClient
  rw [hfd, hwrite]
  rfl

theorem acceptClient_failed {t : ClientTable} {fd : BitVec 32} (hfd : fd.msb = true) :
    acceptClient t fd = .ok t := by
  unfold acceptClient
  rw [hfd]
  rfl

theorem readClient_ok {t : ClientTable} {i : Nat} (hi : i < fepMaxClients) :
    ∃ fd, t.readClient i = .ok fd ∧ t.clients[i]? = some fd := by
  obtain ⟨fd, hfd⟩ := getElem?_clients (t := t) hi
  refine ⟨fd, ?_, hfd⟩
  rw [ClientTable.readClient, hfd]

theorem clientsUsed_ok {t : ClientTable} (hn : t.nClients ≤ fepMaxClients) :
    ∃ fds, clientsUsed t = .ok fds := by
  have hall : ∀ is : List Nat, (∀ i ∈ is, i < fepMaxClients) →
      ∃ fds, is.mapM t.readClient = .ok fds := by
    intro is
    induction is with
    | nil =>
      intro _
      exact ⟨[], rfl⟩
    | cons i is ih =>
      intro his
      obtain ⟨fd, hfd, -⟩ := readClient_ok (t := t) (his i (by simp))
      obtain ⟨fds, hfds⟩ := ih fun j hj => his j (by simp [hj])
      refine ⟨fd :: fds, ?_⟩
      rw [List.mapM_cons, hfd, hfds]
      rfl
  apply hall
  intro i hi
  have := List.mem_range.mp hi
  omega

theorem removeClient_ok (p : Platform) {t : ClientTable} (hn : t.nClients ≤ fepMaxClients)
    (fd : BitVec 32) : ∃ t', removeClient p t fd = .ok t' ∧ t'.nClients ≤ t.nClients := by
  have hfrom : ∀ left i, i + left = t.nClients →
      ∃ t', removeClientFrom p t fd left i = .ok t' ∧ t'.nClients ≤ t.nClients := by
    intro left
    induction left with
    | zero =>
      intro i _
      exact ⟨t, rfl, Nat.le_refl _⟩
    | succ left ih =>
      intro i hi
      obtain ⟨c, hc, -⟩ := readClient_ok (t := t) (i := i) (by omega)
      unfold removeClientFrom
      rw [hc]
      show ∃ t', (if c = fd then removeClientAt p t i
        else removeClientFrom p t fd left (i + 1)) = .ok t' ∧ _
      split
      · obtain ⟨t', ht'⟩ := removeClientAt_ok p (i := i) (by omega) hn
        obtain ⟨-, -, hn', -⟩ := removeClientAt_cases ht'
        exact ⟨t', ht', by omega⟩
      · exact ih (i + 1) (by omega)
  exact hfrom t.nClients 0 (by omega)

/-! ## What one step does -/

theorem serverStep_accept_failed (p : Platform) {s : ServerState} {fd : BitVec 32}
    (hfd : fd.msb = true) : serverStep p s (.accept fd) = .ok s := by
  simp only [serverStep]
  rw [acceptClient_failed hfd, hfd]
  rfl

theorem serverStep_accept_full (p : Platform) {s : ServerState} {fd : BitVec 32}
    (hfd : fd.msb = false) (hn : fepMaxClients ≤ s.table.nClients) :
    serverStep p s (.accept fd) = .error .badAccess := by
  simp only [serverStep]
  rw [acceptClient_full hfd hn]
  rfl

theorem serverStep_accept_ok (p : Platform) {s : ServerState} {fd : BitVec 32}
    (hfd : fd.msb = false) (hn : s.table.nClients < fepMaxClients) :
    ∃ t', serverStep p s (.accept fd) = .ok ⟨t', s.connected ++ [fd]⟩ ∧
      t'.nClients = s.table.nClients + 1 ∧
      t'.clients = s.table.clients.set s.table.nClients fd := by
  obtain ⟨t', hacc, hn', hclients⟩ := acceptClient_ok hfd hn
  refine ⟨t', ?_, hn', hclients⟩
  simp only [serverStep]
  rw [hacc, hfd]
  rfl

/-- The clients are accepted one after the other. -/
def acceptAll (p : Platform) (s : ServerState) (fds : List (BitVec 32)) : Except Fault ServerState :=
  fds.foldlM (fun s fd => serverStep p s (.accept fd)) s

/-- They can be as long as there is room in the table. -/
theorem acceptAll_ok_iff (p : Platform) {s : ServerState} {fds : List (BitVec 32)}
    (hn : s.table.nClients ≤ fepMaxClients) (hfds : ∀ fd ∈ fds, fd.msb = false) :
    (∃ s', acceptAll p s fds = .ok s') ↔ s.table.nClients + fds.length ≤ fepMaxClients := by
  induction fds generalizing s with
  | nil => exact iff_of_true ⟨s, rfl⟩ hn
  | cons fd fds ih =>
    obtain ⟨hfd, hfds⟩ := List.forall_mem_cons.mp hfds
    rw [List.length_cons]
    by_cases hroom : s.table.nClients < fepMaxClients
    · obtain ⟨t', hstep, hnext, -⟩ := serverStep_accept_ok p hfd hroom
      have hcons : acceptAll p s (fd :: fds) = acceptAll p ⟨t', s.connected ++ [fd]⟩ fds := by
        rw [acceptAll, List.foldlM_cons, hstep]
        rfl
      have hle : t'.nClients ≤ fepMaxClients := by omega
      rw [hcons, ih hle hfds]
      show t'.nClients + fds.length ≤ fepMaxClients ↔ _
      omega
    · have hfull := serverStep_accept_full p hfd (Nat.le_of_not_lt hroom)
      refine iff_of_false ?_ (by omega)
      rintro ⟨s', h⟩
      rw [acceptAll, List.foldlM_cons, hfull] at h
      exact absurd h (by simp [bind, Except.bind])

theorem serverStep_readClient_past (p : Platform) {s : ServerState} {i : Nat} (succeeds : Bool)
    (hi : s.table.nClients ≤ i) : serverStep p s (.readClient i succeeds) = .ok s := by
  simp only [serverStep]
  rw [if_pos hi]
  rfl

/-- A read at index `i`: the table changes when the descriptor is not negative and reading from
it fails. -/
theorem serverStep_readClient (p : Platform) {s : ServerState} {i : Nat} {fd : BitVec 32}
    (succeeds : Bool) (hi : i < s.table.nClients) (hfd : s.table.clients[i]? = some fd) :
    serverStep p s (.readClient i succeeds) =
      if fd.msb || succeeds then .ok s
      else (removeClient p s.table fd).map (⟨·, s.connected.erase fd⟩) := by
  have hread : s.table.readClient i = .ok fd := by
    rw [ClientTable.readClient, hfd]
  simp only [serverStep]
  rw [if_neg (by omega), hread]
  show (if fd.msb || succeeds then Except.ok s else _) = _
  split
  · rfl
  · cases removeClient p s.table fd <;> rfl

theorem serverStep_look (p : Platform) {s : ServerState} {op : ServerOp}
    (hop : op = .keyEvent ∨ op = .windowChange ∨ op = .select)
    (hn : s.table.nClients ≤ fepMaxClients) : serverStep p s op = .ok s := by
  obtain ⟨fds, hfds⟩ := clientsUsed_ok hn
  rcases hop with rfl | rfl | rfl <;>
  · simp only [serverStep]
    rw [hfds]
    rfl

/-! ## The bound on the number of clients -/

/-- No access outside the array so far, and at most `FEP_MAX_CLIENTS` clients. -/
def Bounded : Except Fault ServerState → Prop
  | .ok s => s.table.nClients ≤ fepMaxClients
  | .error _ => False

instance : DecidablePred Bounded
  | .ok s => inferInstanceAs (Decidable (s.table.nClients ≤ fepMaxClients))
  | .error _ => inferInstanceAs (Decidable False)

/-- An accept that returns a descriptor finds room for it. -/
def FindsRoom : Except Fault ServerState → ServerOp → Prop
  | .ok s, .accept fd => fd.msb = false → s.table.nClients < fepMaxClients
  | _, _ => True

/-- One step stays inside the array exactly when its accept finds room: all other steps do. -/
theorem bounded_serverRunStep_iff (p : Platform) (r : Except Fault ServerState) (op : ServerOp)
    (hr : Bounded r) : Bounded (serverRunStep p r op) ↔ FindsRoom r op := by
  match r, hr with
  | .ok s, hr =>
    have hn : s.table.nClients ≤ fepMaxClients := hr
    show Bounded (serverStep p s op) ↔ _
    cases op with
    | accept fd =>
      cases hfd : fd.msb with
      | true =>
        rw [serverStep_accept_failed p hfd]
        refine iff_of_true hr ?_
        intro hneg
        rw [hfd] at hneg
        exact absurd hneg (by decide)
      | false =>
        rcases Nat.lt_or_ge s.table.nClients fepMaxClients with hlt | hge
        · obtain ⟨t', hstep, hn', -⟩ := serverStep_accept_ok p hfd hlt
          rw [hstep]
          refine iff_of_true ?_ fun _ => hlt
          show t'.nClients ≤ fepMaxClients
          omega
        -- the store past the end
        · rw [serverStep_accept_full p hfd hge]
          refine iff_of_false (fun h => h) ?_
          intro hroom
          have := hroom hfd
          omega
    | readClient i succeeds =>
      -- the index is below `n_clients`, and a removal only lowers it
      refine iff_of_true ?_ trivial
      rcases Nat.lt_or_ge i s.table.nClients with hi | hi
      · obtain ⟨fd, hfd⟩ := getElem?_clients (t := s.table) (i := i) (by omega)
        obtain ⟨t', ht', hle⟩ := removeClient_ok p hn fd
        rw [serverStep_readClient p succeeds hi hfd]
        split
        · exact hr
        · rw [ht']
          exact Nat.le_trans hle hn
      · rw [serverStep_readClient_past p succeeds hi]
        exact hr
    | keyEvent => exact iff_of_true (by rwa [serverStep_look p (by simp) hn]) trivial
    | windowChange => exact iff_of_true (by rwa [serverStep_look p (by simp) hn]) trivial
    | select => exact iff_of_true (by rwa [serverStep_look p (by simp) hn]) trivial

/-- **When the server stays inside the client table.** In every run from the start, no index is
out of bounds and there are at most `FEP_MAX_CLIENTS` clients, exactly when every accept of the run
finds fewer than that. Nothing in `main_loop` sees to it. -/
theorem bounded_iff_accepts_find_room (p : Platform) (ops : List ServerOp) :
    (∀ r ∈ states (serverRunStep p) (.ok ServerState.new) ops, Bounded r) ↔
      ∀ x ∈ transitions (serverRunStep p) (.ok ServerState.new) ops, FindsRoom x.1 x.2 :=
  forall_states_iff (fun r op hr (_ : True) => bounded_serverRunStep_iff p r op hr) (Nat.zero_le _)
    (fun _ _ => trivial)

def elevenAccepts : List ServerOp :=
  [5, 6, 7, 8, 9, 10, 11, 12, 13, 14, 15].map ServerOp.accept

/-- The eleventh descriptor is stored past the end of the array. -/
theorem not_bounded_elevenAccepts :
    ¬ ∀ r ∈ states (serverRunStep .x86_64) (.ok ServerState.new) elevenAccepts, Bounded r := by
  decide

/-! ## The table as the list of connected clients -/

/-- The table holds the connected clients, in order, and no client twice. -/
def Holds (s : ServerState) : Prop :=
  s.table.nClients = s.connected.length ∧
    s.table.clients.take s.table.nClients = s.connected ∧
    s.connected.Nodup ∧ ∀ fd ∈ s.connected, fd.msb = false

def TableHolds : Except Fault ServerState → Prop
  | .ok s => Holds s
  | .error _ => False

/-- What is assumed of an accept: it finds room, and its descriptor is not in use. -/
def AcceptsFresh : Except Fault ServerState → ServerOp → Prop
  | .ok s, .accept fd => fd.msb = false → s.table.nClients < fepMaxClients ∧ fd ∉ s.connected
  | _, _ => True

instance : ∀ r op, Decidable (AcceptsFresh r op)
  | .ok s, .accept fd => inferInstanceAs
      (Decidable (fd.msb = false → s.table.nClients < fepMaxClients ∧ fd ∉ s.connected))
  | .ok _, .readClient _ _ | .ok _, .keyEvent | .ok _, .windowChange | .ok _, .select
  | .error _, _ => inferInstanceAs (Decidable True)

/-- If the step is a failing read, it is from a client whose entry can be removed. -/
def RemovesRemovable (p : Platform) : Except Fault ServerState → ServerOp → Prop
  | .ok s, .readClient i false => i < s.table.nClients → Removable p s.table i
  | _, _ => True

theorem Holds.le {s : ServerState} (hs : Holds s) : s.table.nClients ≤ fepMaxClients := by
  obtain ⟨hn, htake, -, -⟩ := hs
  have hlen := congrArg List.length htake
  rw [List.length_take, s.table.length_clients] at hlen
  omega

theorem Holds.nodup {s : ServerState} (hs : Holds s) :
    (s.table.clients.take s.table.nClients).Nodup := by
  obtain ⟨-, htake, hnodup, -⟩ := hs
  rwa [htake]

theorem Holds.getElem? {s : ServerState} (hs : Holds s) {i : Nat} (hi : i < s.table.nClients) :
    s.table.clients[i]? = s.connected[i]? := by
  obtain ⟨-, htake, -, -⟩ := hs
  rw [← htake, List.getElem?_take_of_lt hi]

theorem Holds.accept {s : ServerState} (hs : Holds s) {fd : BitVec 32} {t' : ClientTable}
    (hfd : fd.msb = false) (hroom : s.table.nClients < fepMaxClients) (hnew : fd ∉ s.connected)
    (hn' : t'.nClients = s.table.nClients + 1)
    (hclients : t'.clients = s.table.clients.set s.table.nClients fd) :
    Holds ⟨t', s.connected ++ [fd]⟩ := by
  obtain ⟨hn, htake, hnodup, hpos⟩ := hs
  refine ⟨by simp [hn', hn], ?_, ?_, ?_⟩
  · show t'.clients.take t'.nClients = s.connected ++ [fd]
    rw [hn', hclients, List.take_add_one, List.take_set_of_le (Nat.le_refl _), htake,
      List.getElem?_set_self (by rw [s.table.length_clients]; exact hroom)]
    rfl
  · refine List.nodup_append.mpr ⟨hnodup, by simp, ?_⟩
    intro a ha b hb
    rw [List.mem_singleton.mp hb]
    exact fun heq => hnew (heq ▸ ha)
  · intro c hc
    rcases List.mem_append.mp hc with hc | hc
    · exact hpos c hc
    · rw [List.mem_singleton.mp hc]
      exact hfd

theorem Holds.remove_iff {s : ServerState} (hs : Holds s) {i : Nat} {fd : BitVec 32}
    (hfd : s.connected[i]? = some fd) (t' : ClientTable) :
    Holds ⟨t', s.connected.erase fd⟩ ↔ RemovedAt s.table i t' := by
  obtain ⟨hn, htake, hnodup, hpos⟩ := hs
  obtain ⟨hlt, hget⟩ := List.getElem?_eq_some_iff.mp hfd
  have herase : s.connected.erase fd = s.connected.eraseIdx i := by
    rw [← hget]
    exact hnodup.erase_getElem i hlt
  have hlen : (s.connected.erase fd).length = s.table.nClients - 1 := by
    rw [herase, List.length_eraseIdx, if_pos hlt, hn]
  have hnodup' : (s.connected.erase fd).Nodup := hnodup.erase fd
  have hpos' : ∀ c ∈ s.connected.erase fd, c.msb = false :=
    fun c hc => hpos c (List.mem_of_mem_erase hc)
  unfold Holds RemovedAt
  rw [htake, ← herase, hlen]
  constructor
  · rintro ⟨hn', htake', -, -⟩
    exact ⟨hn', hn' ▸ htake'⟩
  · rintro ⟨hn', htake'⟩
    exact ⟨hn', hn' ▸ htake', hnodup', hpos'⟩

/-- **One removal.** On a table of distinct descriptors, a failing read from index `i` removes
that descriptor and nothing else exactly when the entry is removable. -/
theorem removeClient_removedAt_iff (p : Platform) {t : ClientTable} {i : Nat} {fd : BitVec 32}
    (hi : i < t.nClients) (hn : t.nClients ≤ fepMaxClients)
    (hnodup : (t.clients.take t.nClients).Nodup) (hfd : t.clients[i]? = some fd) :
    (∃ t', removeClient p t fd = .ok t' ∧ RemovedAt t i t') ↔ Removable p t i := by
  obtain ⟨t', ht'⟩ := removeClientAt_ok p hi hn
  rw [removeClient_eq p hi hn hnodup hfd, ht', ← removedAt_iff_removable p hi hn hnodup ht']
  constructor
  · rintro ⟨u, hu, hrem⟩
    rwa [Except.ok.inj hu]
  · intro hrem
    exact ⟨t', rfl, hrem⟩

/-- The read of a client, which is removed if the read fails. -/
theorem Holds.readClient_iff (p : Platform) {s : ServerState} (hs : Holds s) (i : Nat)
    (succeeds : Bool) :
    TableHolds (serverStep p s (.readClient i succeeds)) ↔
      RemovesRemovable p (.ok s) (.readClient i succeeds) := by
  rcases Nat.lt_or_ge i s.table.nClients with hi | hi
  · obtain ⟨fd, hfd⟩ := getElem?_clients (t := s.table) (i := i) (Nat.lt_of_lt_of_le hi hs.le)
    -- the entry is the descriptor of a connected client, so that it is read
    have hconn : s.connected[i]? = some fd := by rw [← hs.getElem? hi, hfd]
    have hneg : fd.msb = false := hs.2.2.2 fd (List.mem_of_getElem? hconn)
    rw [serverStep_readClient p succeeds hi hfd, hneg]
    cases succeeds with
    | true => exact iff_of_true hs trivial
    | false =>
      -- the read fails: the table is right if that one client has been removed
      have hiff := removeClient_removedAt_iff p hi hs.le hs.nodup hfd
      obtain ⟨t', ht', -⟩ := removeClient_ok p hs.le fd
      rw [ht'] at hiff ⊢
      show Holds ⟨t', s.connected.erase fd⟩ ↔ (i < s.table.nClients → Removable p s.table i)
      rw [hs.remove_iff hconn t', ← hiff]
      constructor
      · intro hrem _
        exact ⟨t', rfl, hrem⟩
      · intro hrem
        obtain ⟨u, hu, hrem⟩ := hrem hi
        rwa [Except.ok.inj hu]
  · rw [serverStep_readClient_past p succeeds hi]
    refine iff_of_true hs ?_
    cases succeeds with
    | true => trivial
    | false => exact fun hi' => absurd hi' (by omega)

/-- One step keeps the table right exactly when it removes no entry that is not removable. -/
theorem tableHolds_serverRunStep_iff (p : Platform) (r : Except Fault ServerState) (op : ServerOp)
    (hr : TableHolds r) (hfresh : AcceptsFresh r op) :
    TableHolds (serverRunStep p r op) ↔ RemovesRemovable p r op := by
  match r, hr with
  | .ok s, hr =>
    have hs : Holds s := hr
    show TableHolds (serverStep p s op) ↔ _
    cases op with
    | accept fd =>
      refine iff_of_true ?_ trivial
      cases hfd : fd.msb with
      | true =>
        rw [serverStep_accept_failed p hfd]
        exact hs
      | false =>
        obtain ⟨hroom, hnew⟩ := hfresh hfd
        obtain ⟨t', hstep, hn', hclients⟩ := serverStep_accept_ok p hfd hroom
        rw [hstep]
        exact hs.accept hfd hroom hnew hn' hclients
    | readClient i succeeds => exact hs.readClient_iff p i succeeds
    | keyEvent => exact iff_of_true (by rwa [serverStep_look p (by simp) hs.le]) trivial
    | windowChange => exact iff_of_true (by rwa [serverStep_look p (by simp) hs.le]) trivial
    | select => exact iff_of_true (by rwa [serverStep_look p (by simp) hs.le]) trivial

theorem forall_tableHolds_iff (p : Platform) {ops : List ServerOp}
    (hfresh : ∀ x ∈ transitions (serverRunStep p) (.ok ServerState.new) ops,
      AcceptsFresh x.1 x.2) :
    (∀ r ∈ states (serverRunStep p) (.ok ServerState.new) ops, TableHolds r) ↔
      ∀ x ∈ transitions (serverRunStep p) (.ok ServerState.new) ops,
        RemovesRemovable p x.1 x.2 := by
  refine forall_states_iff (tableHolds_serverRunStep_iff p) ?_ hfresh
  exact ⟨rfl, rfl, List.nodup_nil, by simp [ServerState.new]⟩

/-- **When the table is the list of connected clients.** First the removal by itself, from any
table of distinct descriptors; then, for any run of accepts that find room and of reads that
succeed or fail, the table in every state of the run. -/
theorem removed_iff_and_runs_iff (p : Platform) :
    (∀ (t : ClientTable) (i : Nat) (fd : BitVec 32), i < t.nClients → t.nClients ≤ fepMaxClients →
      (t.clients.take t.nClients).Nodup → (∀ c ∈ t.clients.take t.nClients, c.msb = false) →
      t.clients[i]? = some fd →
      ((∃ t', removeClient p t fd = .ok t' ∧ RemovedAt t i t') ↔ Removable p t i)) ∧
    ∀ ops : List ServerOp,
      (∀ x ∈ transitions (serverRunStep p) (.ok ServerState.new) ops, AcceptsFresh x.1 x.2) →
      ((∀ r ∈ states (serverRunStep p) (.ok ServerState.new) ops, TableHolds r) ↔
        ∀ x ∈ transitions (serverRunStep p) (.ok ServerState.new) ops,
          RemovesRemovable p x.1 x.2) := by
  refine ⟨?_, ?_⟩
  · intro t i fd hi hn hnodup _ hfd
    exact removeClient_removedAt_iff p hi hn hnodup hfd
  · intro ops hfresh
    exact forall_tableHolds_iff p hfresh

def threeClients : ClientTable where
  clients := [4, 5, 6, -1, -1, -1, -1, -1, -1, -1]
  nClients := 3
  length_clients := rfl

def firstOfThreeLeaves : List ServerOp :=
  [.accept 4, .accept 5, .accept 6, .readClient 0 false]

theorem acceptsFresh_firstOfThreeLeaves :
    ∀ x ∈ transitions (serverRunStep .x86_64) (.ok ServerState.new) firstOfThreeLeaves,
      AcceptsFresh x.1 x.2 := by
  decide

/-- Both parts at the three clients: the removal of the last one, and the run. -/
theorem removed_iff_and_runs_iff_threeClients :
    ((∃ t', removeClient .x86_64 threeClients 6 = .ok t' ∧ RemovedAt threeClients 2 t') ↔
      Removable .x86_64 threeClients 2) ∧
    ((∀ r ∈ states (serverRunStep .x86_64) (.ok ServerState.new) firstOfThreeLeaves,
      TableHolds r) ↔
      ∀ x ∈ transitions (serverRunStep .x86_64) (.ok ServerState.new) firstOfThreeLeaves,
        RemovesRemovable .x86_64 x.1 x.2) := by
  have hpos : ∀ c ∈ threeClients.clients.take threeClients.nClients, c.msb = false := by
    intro c hc
    rcases (by simpa [threeClients] using hc : c = 4 ∨ c = 5 ∨ c = 6) with rfl | rfl | rfl <;> rfl
  exact ⟨(removed_iff_and_runs_iff .x86_64).1 threeClients 2 6 (by decide) (by decide) (by decide)
      hpos rfl,
    (removed_iff_and_runs_iff .x86_64).2 firstOfThreeLeaves acceptsFresh_firstOfThreeLeaves⟩

/-- The removal of the first of three clients leaves the second one twice and loses the third, and
so does a run that comes to that removal. -/
theorem not_tableHolds_firstOfThreeLeaves :
    (removeClient .x86_64 threeClients 4).map (fun t => t.clients.take t.nClients) = .ok [5, 5] ∧
    (¬ ∃ t', removeClient .x86_64 threeClients 4 = .ok t' ∧ RemovedAt threeClients 0 t') ∧
    (∀ x ∈ transitions (serverRunStep .x86_64) (.ok ServerState.new) firstOfThreeLeaves,
      AcceptsFresh x.1 x.2) ∧
    ¬ ∀ r ∈ states (serverRunStep .x86_64) (.ok ServerState.new) firstOfThreeLeaves,
      TableHolds r := by
  have hremoved : (removeClient .x86_64 threeClients 4).map
      (fun t => t.clients.take t.nClients) = .ok [5, 5] := by
    decide +kernel
  refine ⟨hremoved, ?_, acceptsFresh_firstOfThreeLeaves, ?_⟩
  · rintro ⟨t', ht', hn, htake⟩
    rw [ht'] at hremoved
    have htwo : t'.clients.take t'.nClients = [5, 5] := Except.ok.inj hremoved
    rw [hn, htake] at htwo
    exact absurd htwo (by decide)
  · intro hall
    have hgood := (forall_tableHolds_iff .x86_64 acceptsFresh_firstOfThreeLeaves).mp hall
    simp only [firstOfThreeLeaves, transitions, List.forall_mem_cons] at hgood
    obtain ⟨-, -, -, hlast, -⟩ := hgood
    rcases hlast (by decide) with h | ⟨h, -⟩
    · exact absurd h (by decide)
    · exact absurd h (by decide)

end LibFep
