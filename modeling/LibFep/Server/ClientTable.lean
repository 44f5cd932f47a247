import Mathlib.Data.List.Nodup
import LibFep.Platform
import LibFep.Lib.Runs

/-!
# LibFep — the table of connected clients

`clients` and `n_clients` of `struct _Fep` and the code that uses them: the accept and the read
loop of `main_loop`, the broadcast loops for key events and window changes, `_fep_pselect`, and
the removal of a client in `_fep_read_control_message_from_fd` when reading from it fails.

Every access to `clients` goes through `readClient` or `writeClient`, which fault outside the
array. The removal copies bytes, as `memmove` does, over the memory image of the array.
-/

namespace LibFep

open Lib

def fepMaxClients : Nat := 10

structure ClientTable where
  clients : List (BitVec 32)
  nClients : Nat
  length_clients : clients.length = fepMaxClients

/-- The table as `fep_new` makes it. -/
def ClientTable.new : ClientTable where
  clients := List.replicate fepMaxClients (-1)
  nClients := 0
  length_clients := by simp

/-- `clients[i]`. -/
def ClientTable.readClient (t : ClientTable) (i : Nat) : Except Fault (BitVec 32) :=
  match t.clients[i]? with
  | some fd => .ok fd
  | none => .error .badAccess

/-- `clients[i] = fd`. -/
def ClientTable.writeClient (t : ClientTable) (i : Nat) (fd : BitVec 32) :
    Except Fault ClientTable :=
  if i < fepMaxClients then
    .ok { t with clients := t.clients.set i fd, length_clients := by simp [t.length_clients] }
  else .error .badAccess

/-- `memmove (&clients[dst], &clients[src], count)`, a copy of `count` bytes. -/
def ClientTable.moveClients (p : Platform) (t : ClientTable) (dst src count : Nat) :
    Except Fault ClientTable :=
  if 4 * dst + count ≤ 4 * fepMaxClients ∧ 4 * src + count ≤ 4 * fepMaxClients then
    .ok { t with
      clients := loadWords p.wordsBigEndian fepMaxClients
        (memmove (storeWords p.wordsBigEndian t.clients) (4 * dst) (4 * src) count)
      length_clients := by simp }
  else .error .badAccess

/-- `clients[n_clients++] = fd` in `main_loop`, for the descriptor `accept` returns. -/
def acceptClient (t : ClientTable) (fd : BitVec 32) : Except Fault ClientTable := do
  if fd.msb then return t
  let t ← t.writeClient t.nClients fd
  return { t with nClients := t.nClients + 1 }

/-- The entries after index `i` moved up, if there are any. -/
def shiftClients (p : Platform) (t : ClientTable) (i : Nat) : Except Fault ClientTable :=
  if i + 1 < t.nClients then t.moveClients p i (i + 1) (t.nClients - (i + 1)) else .ok t

/-- What `_fep_read_control_message_from_fd` does to the table once it has found the descriptor
at index `i`. -/
def removeClientAt (p : Platform) (t : ClientTable) (i : Nat) : Except Fault ClientTable := do
  let t ← shiftClients p t i
  let t := { t with nClients := t.nClients - 1 }
  t.writeClient t.nClients (-1)

/-- The search of `_fep_read_control_message_from_fd` for the descriptor, from index `i` on. -/
def removeClientFrom (p : Platform) (t : ClientTable) (fd : BitVec 32) :
    Nat → Nat → Except Fault ClientTable
  | 0, _ => .ok t
  | left + 1, i => do
    if (← t.readClient i) = fd then removeClientAt p t i
    else removeClientFrom p t fd left (i + 1)

/-- What `_fep_read_control_message_from_fd` does to the table when the read fails. -/
def removeClient (p : Platform) (t : ClientTable) (fd : BitVec 32) : Except Fault ClientTable :=
  removeClientFrom p t fd t.nClients 0

/-- The loops over `clients[0 .. n_clients)` that only look at the entries: the broadcasts of key
events and window changes and the loop of `_fep_pselect`. The result are the descriptors used. -/
def clientsUsed (t : ClientTable) : Except Fault (List (BitVec 32)) :=
  (List.range t.nClients).mapM t.readClient

theorem map_some_of_mapM_readClient {t : ClientTable} {is : List Nat} {fds : List (BitVec 32)}
    (h : is.mapM t.readClient = .ok fds) : fds.map some = is.map (t.clients[·]?) := by
  induction is generalizing fds with
  | nil =>
    obtain rfl := Except.ok.inj h
    rfl
  | cons i is ih =>
    rw [List.mapM_cons] at h
    obtain ⟨fd, hread, h⟩ := bind_eq_ok.mp h
    obtain ⟨rest, hrest, h⟩ := bind_eq_ok.mp h
    obtain rfl := Except.ok.inj h
    rw [List.map_cons, List.map_cons, ih hrest]
    congr 1
    unfold ClientTable.readClient at hread
    split at hread
    · next fd' hfd => rw [hfd, Except.ok.inj hread]
    · exact absurd hread (by simp)

/-- The loops use the first `n_clients` entries. -/
theorem eq_take_of_clientsUsed {t : ClientTable} {fds : List (BitVec 32)}
    (h : clientsUsed t = .ok fds) : fds = t.clients.take t.nClients := by
  have hmap := map_some_of_mapM_readClient h
  apply List.ext_getElem?
  intro i
  have hi := congrArg (·[i]?) hmap
  simp only [List.getElem?_map] at hi
  rcases Nat.lt_or_ge i t.nClients with hlt | hge
  · rw [List.getElem?_take_of_lt hlt]
    rw [List.getElem?_range hlt] at hi
    cases hfd : fds[i]? with
    | none => rw [hfd] at hi; exact absurd hi (by simp)
    | some fd =>
      rw [hfd] at hi
      exact Option.some.inj hi
  · have hlen : fds.length = t.nClients := by
      have := congrArg List.length hmap
      rwa [List.length_map, List.length_map, List.length_range] at this
    rw [List.getElem?_take_eq_none hge, List.getElem?_eq_none (by omega)]

/-! ## What a removal leaves in the array

`removeClientAt` copies `n_clients - (i + 1)` bytes where as many elements have to move up. -/

theorem getElem?_clients {t : ClientTable} {i : Nat} (hi : i < fepMaxClients) :
    ∃ fd, t.clients[i]? = some fd :=
  ⟨_, List.getElem?_eq_getElem (by rw [t.length_clients]; exact hi)⟩

/-- A copy stays within the array and leaves the number of clients alone. -/
theorem moveClients_ok {p : Platform} {t t' : ClientTable} {dst src count : Nat}
    (h : t.moveClients p dst src count = .ok t') :
    (4 * dst + count ≤ 4 * fepMaxClients ∧ 4 * src + count ≤ 4 * fepMaxClients) ∧
      t'.nClients = t.nClients ∧ t'.clients = loadWords p.wordsBigEndian fepMaxClients
        (memmove (storeWords p.wordsBigEndian t.clients) (4 * dst) (4 * src) count) := by
  unfold ClientTable.moveClients at h
  split at h
  · next hbound =>
    obtain rfl := Except.ok.inj h
    exact ⟨hbound, rfl, rfl⟩
  · exact absurd h (by simp)

/-- A word whose bytes the copy does not reach is left as it was. -/
theorem getElem?_moveClients {p : Platform} {t t' : ClientTable} {dst count j : Nat}
    (h : t.moveClients p dst (dst + 1) count = .ok t')
    (hout : j < dst ∨ 4 * dst + count ≤ 4 * j) : t'.clients[j]? = t.clients[j]? := by
  obtain ⟨hbound, -, ht'⟩ := moveClients_ok h
  have hlen : (storeWords p.wordsBigEndian t.clients).length = 4 * fepMaxClients := by
    rw [length_storeWords, t.length_clients]
  rcases Nat.lt_or_ge j fepMaxClients with hj | hj
  · obtain ⟨fd, hfd⟩ := getElem?_clients (t := t) hj
    rw [ht', getElem?_loadWords _ _ _ hj, hfd,
      ← wordAt_storeWords p.wordsBigEndian t.clients j fd hfd]
    refine congrArg some (wordAt_congr ?_)
    intro r hr
    rw [getElem?_memmove _ _ _ _ _ (by omega) (by omega), if_neg (by omega)]
  · rw [List.getElem?_eq_none (by rw [t'.length_clients]; exact hj),
      List.getElem?_eq_none (by rw [t.length_clients]; exact hj)]

/-- A copy of one byte replaces the first byte of an element by that of the next. -/
theorem getElem?_moveClients_one {p : Platform} {t t' : ClientTable} {dst : Nat}
    {a b : BitVec 32} (h : t.moveClients p dst (dst + 1) 1 = .ok t')
    (ha : t.clients[dst]? = some a) (hb : t.clients[dst + 1]? = some b) :
    t'.clients[dst]? = some (loadWord p.wordsBigEndian (memByte p.wordsBigEndian b 0)
      (memByte p.wordsBigEndian a 1) (memByte p.wordsBigEndian a 2)
      (memByte p.wordsBigEndian a 3)) := by
  obtain ⟨hbound, -, ht'⟩ := moveClients_ok h
  have hlen : (storeWords p.wordsBigEndian t.clients).length = 4 * fepMaxClients := by
    rw [length_storeWords, t.length_clients]
  generalize hmem : memmove (storeWords p.wordsBigEndian t.clients) (4 * dst) (4 * (dst + 1)) 1 =
    mem at ht'
  -- byte 0 comes from the next element, the others stay
  have hbyte (r : Nat) (hr : r < 4) :
      mem[4 * dst + r]? = some (memByte p.wordsBigEndian (if r = 0 then b else a) r) := by
    rw [← hmem, getElem?_memmove _ _ _ _ _ (by omega) (by omega)]
    by_cases h0 : r = 0
    · subst h0
      rw [if_pos (by omega), if_pos rfl,
        show 4 * (dst + 1) + (4 * dst + 0 - 4 * dst) = 4 * (dst + 1) + 0 from by omega,
        getElem?_storeWords _ _ _ _ (by omega), hb, Option.map_some]
    · rw [if_neg (by omega), if_neg h0, getElem?_storeWords _ _ _ _ hr, ha, Option.map_some]
  have h0 : mem[4 * dst]? = some (memByte p.wordsBigEndian b 0) := hbyte 0 (by omega)
  have h1 : mem[4 * dst + 1]? = some (memByte p.wordsBigEndian a 1) := hbyte 1 (by omega)
  have h2 : mem[4 * dst + 2]? = some (memByte p.wordsBigEndian a 2) := hbyte 2 (by omega)
  have h3 : mem[4 * dst + 3]? = some (memByte p.wordsBigEndian a 3) := hbyte 3 (by omega)
  rw [ht', getElem?_loadWords _ _ _ (by omega)]
  simp only [wordAt, List.getD_eq_getElem?_getD, h0, h1, h2, h3, Option.getD_some]

/-! ## A removal at a known index -/

theorem nClients_shiftClients {p : Platform} {t u : ClientTable} {i : Nat}
    (h : shiftClients p t i = .ok u) : u.nClients = t.nClients := by
  unfold shiftClients at h
  split at h
  · exact (moveClients_ok h).2.1
  · rw [← Except.ok.inj h]

theorem removeClientAt_cases {p : Platform} {t t' : ClientTable} {i : Nat}
    (h : removeClientAt p t i = .ok t') :
    ∃ u, shiftClients p t i = .ok u ∧ t'.nClients = t.nClients - 1 ∧
      t'.clients = u.clients.set (t.nClients - 1) (-1) := by
  unfold removeClientAt at h
  match hshift : shiftClients p t i, h with
  | .ok u, h =>
    have hu := nClients_shiftClients hshift
    change ClientTable.writeClient { u with nClients := u.nClients - 1 } (u.nClients - 1) (-1)
      = .ok t' at h
    unfold ClientTable.writeClient at h
    split at h
    · refine ⟨u, rfl, ?_, ?_⟩ <;> rw [← Except.ok.inj h] <;> simp [hu]
    · exact absurd h (by simp)

theorem removeClientAt_ok (p : Platform) {t : ClientTable} {i : Nat} (hi : i < t.nClients)
    (hn : t.nClients ≤ fepMaxClients) : ∃ t', removeClientAt p t i = .ok t' := by
  have hshift : ∃ u, shiftClients p t i = .ok u := by
    unfold shiftClients ClientTable.moveClients
    split
    · rw [if_pos (by omega)]
      exact ⟨_, rfl⟩
    · exact ⟨t, rfl⟩
  obtain ⟨u, hu⟩ := hshift
  have hn' := nClients_shiftClients hu
  have hwrite : ∃ t', ClientTable.writeClient { u with nClients := u.nClients - 1 }
      (u.nClients - 1) (-1) = .ok t' := by
    rw [ClientTable.writeClient, if_pos (by omega)]
    exact ⟨_, rfl⟩
  obtain ⟨t', ht'⟩ := hwrite
  refine ⟨t', ?_⟩
  unfold removeClientAt
  rw [hu]
  exact ht'

/-- The table after the removal of index `i`: the other descriptors, unchanged and in order. -/
def RemovedAt (t : ClientTable) (i : Nat) (t' : ClientTable) : Prop :=
  t'.nClients = t.nClients - 1 ∧
    t'.clients.take (t.nClients - 1) = (t.clients.take t.nClients).eraseIdx i

/-- The removals that move all the bytes they have to: that of the last client, and that of the
last but one when its descriptor differs from the last one in the first byte only. -/
def Removable (p : Platform) (t : ClientTable) (i : Nat) : Prop :=
  i + 1 = t.nClients ∨
    (i + 2 = t.nClients ∧ ∀ a b, t.clients[i]? = some a → t.clients[i + 1]? = some b →
      SameAfterFirstByte p.wordsBigEndian a b)

theorem removedAt_iff {t t' : ClientTable} {i : Nat} (hi : i < t.nClients)
    (hn : t'.nClients = t.nClients - 1) :
    RemovedAt t i t' ↔ ∀ j, j + 1 < t.nClients →
      t'.clients[j]? = if j < i then t.clients[j]? else t.clients[j + 1]? := by
  unfold RemovedAt
  rw [and_iff_right hn]
  constructor
  · intro h j hj
    have hget := congrArg (·[j]?) h
    simp only [List.getElem?_take_of_lt (show j < t.nClients - 1 by omega),
      List.getElem?_eraseIdx] at hget
    rw [hget]
    split
    · exact List.getElem?_take_of_lt (by omega)
    · exact List.getElem?_take_of_lt (by omega)
  · intro h
    apply List.ext_getElem?
    intro j
    rcases Nat.lt_or_ge (j + 1) t.nClients with hj | hj
    · rw [List.getElem?_take_of_lt (by omega), h j hj, List.getElem?_eraseIdx]
      split
      · exact (List.getElem?_take_of_lt (by omega)).symm
      · exact (List.getElem?_take_of_lt (by omega)).symm
    · rw [List.getElem?_take_eq_none (by omega), List.getElem?_eraseIdx, if_neg (by omega),
        List.getElem?_take_eq_none (by omega)]

theorem getElem?_ne_of_nodup {t : ClientTable} {i j : Nat} (hj : j < t.nClients)
    (hn : t.nClients ≤ fepMaxClients) (hnodup : (t.clients.take t.nClients).Nodup) (hij : i < j) :
    t.clients[i]? ≠ t.clients[j]? := by
  have hlen : (t.clients.take t.nClients).length = t.nClients := by
    rw [List.length_take, t.length_clients]
    omega
  have hne := List.nodup_iff_getElem?_ne_getElem?.mp hnodup i j hij (by omega)
  rwa [List.getElem?_take_of_lt (by omega), List.getElem?_take_of_lt hj] at hne

/-- **When a removal is done right.** With one element to move up, one byte is copied, and the
other three have to agree; with more, the last of them is not copied at all. -/
theorem removedAt_iff_removable (p : Platform) {t t' : ClientTable} {i : Nat}
    (hi : i < t.nClients) (hn : t.nClients ≤ fepMaxClients)
    (hnodup : (t.clients.take t.nClients).Nodup) (h : removeClientAt p t i = .ok t') :
    RemovedAt t i t' ↔ Removable p t i := by
  obtain ⟨u, hshift, hn', hclients⟩ := removeClientAt_cases h
  rw [removedAt_iff hi hn']
  have hget (j : Nat) (hj : j + 1 < t.nClients) : t'.clients[j]? = u.clients[j]? := by
    rw [hclients, List.getElem?_set_ne (by omega)]
  rcases (by omega : i + 1 = t.nClients ∨ i + 2 = t.nClients ∨ i + 2 < t.nClients)
    with hlast | htwo | hmore
  · -- the last client: nothing is copied
    rw [shiftClients, if_neg (by omega), Except.ok.injEq] at hshift
    subst hshift
    refine iff_of_true ?_ (Or.inl hlast)
    intro j hj
    rw [hget j hj, if_pos (by omega)]
  · -- the last but one: one byte is copied
    rw [shiftClients, if_pos (by omega), show t.nClients - (i + 1) = 1 from by omega] at hshift
    obtain ⟨a, ha⟩ := getElem?_clients (t := t) (i := i) (by omega)
    obtain ⟨b, hb⟩ := getElem?_clients (t := t) (i := i + 1) (by omega)
    have hmix := getElem?_moveClients_one hshift ha hb
    have hcond : Removable p t i ↔ SameAfterFirstByte p.wordsBigEndian a b := by
      simp [Removable, ha, hb, htwo, show ¬ i + 1 = t.nClients by omega]
    rw [hcond, ← loadWord_first_eq_iff]
    constructor
    · intro hall
      have hi' := hall i (by omega)
      rw [hget i (by omega), hmix, if_neg (by omega), hb] at hi'
      exact Option.some.inj hi'
    · intro hsame j hj
      rw [hget j hj]
      rcases (by omega : j < i ∨ j = i) with hlt | rfl
      · rw [if_pos hlt, getElem?_moveClients hshift (Or.inl hlt)]
      · rw [hmix, hsame, if_neg (by omega), hb]
  · -- the copy ends before the last element that has to move
    rw [shiftClients, if_pos (by omega)] at hshift
    refine iff_of_false ?_ ?_
    · intro hall
      have hlast := hall (t.nClients - 2) (by omega)
      rw [hget _ (by omega), getElem?_moveClients hshift (Or.inr (by omega)), if_neg (by omega),
        show t.nClients - 2 + 1 = t.nClients - 1 from by omega] at hlast
      exact getElem?_ne_of_nodup (by omega) hn hnodup (by omega) hlast
    · rintro (h1 | ⟨h2, -⟩) <;> omega

/-! ## The search for the descriptor -/

/-- The search stops at the first index that holds the descriptor. -/
theorem removeClientFrom_eq (p : Platform) {t : ClientTable} {fd : BitVec 32} {i : Nat}
    (hfd : t.clients[i]? = some fd) (hfirst : ∀ j < i, t.clients[j]? ≠ some fd) :
    ∀ left j, j ≤ i → i < j + left → removeClientFrom p t fd left j = removeClientAt p t i := by
  have hi : i < fepMaxClients := by
    obtain ⟨hlt, -⟩ := List.getElem?_eq_some_iff.mp hfd
    rwa [t.length_clients] at hlt
  intro left
  induction left with
  | zero =>
    intro j hj hlt
    omega
  | succ left ih =>
    intro j hj hlt
    obtain ⟨c, hc⟩ := getElem?_clients (t := t) (i := j) (by omega)
    have hread : t.readClient j = .ok c := by
      rw [ClientTable.readClient, hc]
    unfold removeClientFrom
    rw [hread]
    rcases Nat.lt_or_eq_of_le hj with hlt' | rfl
    -- not yet there: the search goes on
    · have hne : c ≠ fd := fun heq => hfirst j hlt' (heq ▸ hc)
      show (if c = fd then removeClientAt p t j else removeClientFrom p t fd left (j + 1)) = _
      rw [if_neg hne, ih (j + 1) hlt' (by omega)]
    · have heq : c = fd := by rw [hfd] at hc; exact (Option.some.inj hc).symm
      show (if c = fd then removeClientAt p t j else removeClientFrom p t fd left (j + 1)) = _
      rw [if_pos heq]

theorem removeClient_eq (p : Platform) {t : ClientTable} {fd : BitVec 32} {i : Nat}
    (hi : i < t.nClients) (hn : t.nClients ≤ fepMaxClients)
    (hnodup : (t.clients.take t.nClients).Nodup) (hfd : t.clients[i]? = some fd) :
    removeClient p t fd = removeClientAt p t i := by
  refine removeClientFrom_eq p hfd ?_ t.nClients 0 (Nat.zero_le _) (by omega)
  intro j hj heq
  exact getElem?_ne_of_nodup hi hn hnodup hj (heq.trans hfd.symm)

end LibFep
