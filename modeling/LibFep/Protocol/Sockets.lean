import Mathlib.Data.List.Nodup
import LibFep.Lib.Runs
import LibFep.Server.ControlSocket

/-!
# LibFep — servers that start and stop

Servers start, stop and are killed in any order, with any results of the system calls, among files that are
there already. Their clients find them by the path in `LIBFEP_CONTROL_SOCK`.

A path is its bytes, and the same bytes are the same file for everybody. A relative `TMPDIR` that is used from
different directories is not covered.

* **`hostStep_inv`** — one server more or less does not disturb the files of the others.
* **`sockets_of_runs`** — a client is always connected to the server whose path it has, and all that a server
  makes is gone when it has stopped, but for starts that fail with their directory made.
-/

namespace LibFep

open Lib

/-- A server that runs. -/
structure Running where
  number : Nat
  /-- The buffer of `control_socket_path`. -/
  path : List UInt8
  deriving DecidableEq, Repr

/-- The path that clients are given. -/
def Running.address (r : Running) : List UInt8 := cBytes r.path

def Running.dir (r : Running) : List UInt8 :=
  r.address.take (r.address.length - (slash :: controlName).length)

def Running.entries (r : Running) : List FileEntry :=
  [⟨r.dir, .directory⟩, ⟨r.address, .socket r.number⟩]

structure Host where
  files : List FileEntry
  running : List Running
  next : Nat
  /-- What starts that failed and servers that were killed have left. No step looks at it. -/
  left : List FileEntry

def Host.new (files : List FileEntry) : Host := ⟨files, [], 0, []⟩

def Host.listening (host : Host) (number : Nat) : Bool := host.running.any (·.number = number)

inductive HostOp where
  | start (calls : StartCalls)
  /-- A server closes its control socket and exits. -/
  | stop (r : Running)
  | kill (r : Running)

/-- The host after a start. A server whose start fails exits. -/
def Host.afterStart (host : Host) : Except Fault (Option (List UInt8) × List FileEntry) → Host
  | .ok (some path, files) =>
    { host with files := files, running := host.running ++ [⟨host.next, path⟩], next := host.next + 1 }
  | .ok (none, files) =>
    { host with
      files := files
      next := host.next + 1
      left := host.left ++ files.drop host.files.length }
  | .error _ => { host with next := host.next + 1 }

def Host.afterStop (host : Host) (r : Running) : Except Fault (List FileEntry) → Host
  | .ok files => { host with files := files, running := host.running.erase r }
  | .error _ => { host with running := host.running.erase r }

def hostStep (sunPathSize : Nat) (host : Host) : HostOp → Host
  | .start calls => host.afterStart (openControlSocket sunPathSize host.files host.next calls)
  | .stop r =>
    if r ∈ host.running then host.afterStop r (removeControlSocket host.files r.path) else host
  | .kill r =>
    if r ∈ host.running then
      { host with running := host.running.erase r, left := host.left ++ r.entries }
    else host

/-- No server is started with a temporary directory inside that of another server. -/
def StartsOutside (host : Host) : HostOp → Prop
  | .start calls => ∀ r ∈ host.running, ¬ Below r.dir (tmpStem calls.tmpdir)
  | .stop _ | .kill _ => True

instance (host : Host) : ∀ op, Decidable (StartsOutside host op)
  | .start calls => inferInstanceAs
      (Decidable (∀ r ∈ host.running, ¬ Below r.dir (tmpStem calls.tmpdir)))
  | .stop _ | .kill _ => inferInstanceAs (Decidable True)

/-! ## Paths -/

/-- What has a directory in front of it and what comes behind that. -/
theorem below_append {dir path behind : List UInt8} (h : Below dir (path ++ behind)) :
    Below dir path ∨ ∃ more, more ≠ [] ∧ dir ++ [slash] = path ++ more ∧ more <+: behind := by
  rcases List.prefix_or_prefix_of_prefix h (List.prefix_append path behind) with hle | ⟨more, hmore⟩
  · exact Or.inl hle
  · by_cases hnil : more = []
    · left
      rw [hnil, List.append_nil] at hmore
      rw [Below, ← hmore]
    · right
      refine ⟨more, hnil, hmore.symm, ?_⟩
      unfold Below at h
      rw [← hmore] at h
      exact (List.prefix_append_right_inj path).mp h

/-- The part behind ends in a slash. -/
theorem slash_mem_of_append_eq {dir path more : List UInt8} (hne : more ≠ [])
    (h : dir ++ [slash] = path ++ more) : ∃ start, more = start ++ [slash] ∧ dir = path ++ start := by
  obtain ⟨start, last, rfl⟩ := (List.eq_nil_or_concat more).resolve_left hne
  rw [List.concat_eq_append, ← List.append_assoc] at h
  obtain ⟨hdir, hlast⟩ := List.append_inj' h rfl
  rw [List.concat_eq_append, ← hlast]
  exact ⟨start, rfl, hdir⟩

theorem not_below_controlDir {dir : List UInt8} {tmpdir : Option (List UInt8)} {six : List UInt8}
    (hout : ¬ Below dir (tmpStem tmpdir)) (hsix : slash ∉ six) :
    ¬ Below dir (controlDir tmpdir six) := by
  intro h
  rw [controlDir, List.append_assoc] at h
  rcases below_append h with hin | ⟨more, hne, heq, hprefix⟩
  · exact hout hin
  · obtain ⟨start, rfl, -⟩ := slash_mem_of_append_eq hne heq
    have hmem : slash ∈ [0x66, 0x65, 0x70, 0x2D] ++ six := hprefix.subset (by simp)
    rcases List.mem_append.mp hmem with hname | hin
    · exact absurd hname (by decide)
    · exact hsix hin

theorem eq_controlDir_of_below {dir : List UInt8} {tmpdir : Option (List UInt8)} {six : List UInt8}
    (hout : ¬ Below dir (tmpStem tmpdir)) (hsix : slash ∉ six)
    (h : Below dir (controlPath tmpdir six)) : dir = controlDir tmpdir six := by
  rcases below_append h with hin | ⟨more, hne, heq, hprefix⟩
  · exact absurd hin (not_below_controlDir hout hsix)
  · obtain ⟨start, rfl, hdir⟩ := slash_mem_of_append_eq hne heq
    cases start with
    | nil => rw [hdir, List.append_nil]
    | cons c start =>
      obtain ⟨-, hrest⟩ := List.cons_prefix_cons.mp hprefix
      have hmem : slash ∈ controlName := hrest.subset (by simp)
      exact absurd hmem (by decide)

/-! ## Files that are removed again -/

/-- Of files with paths of their own, those that stay when some are removed. -/
theorem filter_perm {files made rest : List FileEntry} (hperm : files.Perm (made ++ rest))
    (hnodup : (files.map (·.path)).Nodup) :
    (files.filter fun e => e.path ∉ made.map (·.path)).Perm rest := by
  have hpaths : ((made ++ rest).map (·.path)).Nodup := (hperm.map _).nodup_iff.mp hnodup
  rw [List.map_append] at hpaths
  have hdisjoint := List.disjoint_of_nodup_append hpaths
  have hmade : (made.filter fun e => e.path ∉ made.map (·.path)) = [] := by
    rw [List.filter_eq_nil_iff]
    intro e he
    simp [List.mem_map_of_mem (f := FileEntry.path) he]
  have hrest : (rest.filter fun e => e.path ∉ made.map (·.path)) = rest := by
    rw [List.filter_eq_self]
    intro e he
    exact decide_eq_true fun hmem => hdisjoint hmem (List.mem_map_of_mem he)
  have hfilter := hperm.filter fun e => e.path ∉ made.map (·.path)
  rwa [List.filter_append, hmade, hrest, List.nil_append] at hfilter

/-- What a server that runs can rely on: its path is short enough, and there is nothing in its directory
but the socket. -/
structure Placed (sunPathSize : Nat) (files : List FileEntry) (r : Running) : Prop where
  read : readString r.path = .ok r.address
  address : r.address = r.dir ++ slash :: controlName
  length : r.address.length + 1 < sunPathSize
  alone : ∀ e ∈ files, Below r.dir e.path → e.path = r.address

/-- **Stopping a server removes what it has made** and nothing else. -/
theorem Placed.removeControlSocket {sunPathSize : Nat} {files rest : List FileEntry} {r : Running}
    (h : Placed sunPathSize files r) (hperm : files.Perm (r.entries ++ rest))
    (hnodup : (files.map (·.path)).Nodup) :
    ∃ files', removeControlSocket files r.path = .ok files' ∧ files'.Perm rest ∧
      files'.Sublist files := by
  have hread := h.read
  rw [h.address] at hread
  -- a path belongs to one file only
  have hentry : ∀ e ∈ files, ∀ e' ∈ r.entries, e.path = e'.path → e = e' := by
    intro e he e' he' hpath
    have hmem : e' ∈ files := hperm.mem_iff.mpr (List.mem_append_left _ he')
    exact List.inj_on_of_nodup_map hnodup he hmem hpath
  have hunlink : unlink files r.address = files.filter fun e => e.path ≠ r.address := by
    apply List.filter_congr
    intro e he
    rw [decide_eq_decide]
    refine or_iff_left_of_imp fun hnode hpath => ?_
    rw [hentry e he ⟨r.address, .socket r.number⟩ (by simp [Running.entries]) hpath] at hnode
    exact absurd hnode (by simp)
  have hempty : ¬ ∃ e ∈ files.filter fun e => e.path ≠ r.address, Below r.dir e.path := by
    rintro ⟨e, he, hbelow⟩
    obtain ⟨hmem, hpath⟩ := List.mem_filter.mp he
    exact of_decide_eq_true hpath (h.alone e hmem hbelow)
  have hrmdir : rmdir (unlink files r.address) r.dir =
      files.filter fun e => e.path ∉ r.entries.map (·.path) := by
    rw [hunlink, rmdir, if_neg hempty, List.filter_filter]
    apply List.filter_congr
    intro e he
    have hdir : e.path = r.dir → e.node = .directory := fun hpath => by
      rw [hentry e he ⟨r.dir, .directory⟩ (by simp [Running.entries]) hpath]
    by_cases hpath : e.path = r.dir
    · simp [Running.entries, hpath, hdir hpath]
    · simp [Running.entries, hpath]
  refine ⟨_, removeControlSocket_eq files hread, ?_, ?_⟩
  · rw [← h.address, hrmdir]
    exact filter_perm hperm hnodup
  · rw [← h.address, hrmdir]
    exact List.filter_sublist

/-! ## What a start makes -/

section

variable {sunPathSize : Nat} {files : List FileEntry} {calls : StartCalls} {six : List UInt8}

def madeDir (calls : StartCalls) (six : List UInt8) : FileEntry :=
  ⟨controlDir calls.tmpdir six, .directory⟩

def madeSocket (calls : StartCalls) (six : List UInt8) (number : Nat) : FileEntry :=
  ⟨controlPath calls.tmpdir six, .socket number⟩

theorem below_controlPath (tmpdir : Option (List UInt8)) (six : List UInt8) :
    Below (controlDir tmpdir six) (controlPath tmpdir six) :=
  ⟨controlName, by rw [controlPath, List.append_assoc, List.singleton_append]⟩

theorem not_below_self (dir : List UInt8) : ¬ Below dir dir := by
  intro h
  have hlen := h.length_le
  rw [List.length_append, List.length_singleton] at hlen
  omega

theorem nodup_made (hnodup : (files.map (·.path)).Nodup) (hpicks : Picks files calls.tmpdir six)
    (number : Nat) :
    ((files ++ [madeDir calls six] ++ [madeSocket calls six number]).map (·.path)).Nodup := by
  have hbelow := below_controlPath calls.tmpdir six
  have hne : controlDir calls.tmpdir six ≠ controlPath calls.tmpdir six := by
    intro heq
    rw [← heq] at hbelow
    exact not_below_self _ hbelow
  rw [List.append_assoc, List.map_append]
  refine List.nodup_append.mpr ⟨hnodup, by simp [madeDir, madeSocket, hne], ?_⟩
  intro path hpath path' hpath' heq
  obtain ⟨e, he, rfl⟩ := List.mem_map.mp hpath
  obtain ⟨hfree, hfree'⟩ := hpicks.free e he
  rcases List.mem_pair.mp hpath' with rfl | rfl
  · exact hfree heq
  · exact hfree' (by rw [heq]; exact hbelow)

/-- The servers that run already have nothing new in their directories. -/
theorem Placed.made {r : Running} (h : Placed sunPathSize files r)
    (hdir : ⟨r.dir, .directory⟩ ∈ files) (hout : ¬ Below r.dir (tmpStem calls.tmpdir))
    (hpicks : Picks files calls.tmpdir six) (number : Nat) :
    Placed sunPathSize (files ++ [madeDir calls six] ++ [madeSocket calls six number]) r := by
  refine ⟨h.read, h.address, h.length, fun e he hbelow => ?_⟩
  rcases List.mem_append.mp he with he | he
  · rcases List.mem_append.mp he with he | he
    · exact h.alone e he hbelow
    · obtain rfl := List.mem_singleton.mp he
      exact absurd hbelow (not_below_controlDir hout hpicks.slash)
  · obtain rfl := List.mem_singleton.mp he
    have hsame := eq_controlDir_of_below hout hpicks.slash hbelow
    exact absurd hsame (hpicks.free _ hdir).1

theorem Placed.of_subset {files' : List FileEntry} {r : Running} (h : Placed sunPathSize files r)
    (hsubset : files' ⊆ files) : Placed sunPathSize files' r :=
  ⟨h.read, h.address, h.length, fun e he => h.alone e (hsubset he)⟩

/-- The server that has started. -/
def startedServer (calls : StartCalls) (six : List UInt8) (number k : Nat) : Running :=
  ⟨number, controlPath calls.tmpdir six ++ 0 :: List.replicate k 0⟩

theorem address_startedServer (hsix : 0 ∉ six) (number k : Nat) :
    (startedServer calls six number k).address = controlPath calls.tmpdir six :=
  (eq_cBytes_of_readString (readString_controlPath hsix _)).symm

theorem dir_startedServer (hsix : 0 ∉ six) (number k : Nat) :
    (startedServer calls six number k).dir = controlDir calls.tmpdir six := by
  rw [Running.dir, address_startedServer hsix, controlPath, List.length_append,
    Nat.add_sub_cancel, List.take_left]

theorem entries_startedServer (hsix : 0 ∉ six) (number k : Nat) :
    (startedServer calls six number k).entries =
      [madeDir calls six, madeSocket calls six number] := by
  rw [Running.entries, address_startedServer hsix, dir_startedServer hsix]
  rfl

theorem placed_startedServer (hpicks : Picks files calls.tmpdir six)
    (hlen : (controlPath calls.tmpdir six).length + 1 < sunPathSize) (number k : Nat) :
    Placed sunPathSize (files ++ [madeDir calls six] ++ [madeSocket calls six number])
      (startedServer calls six number k) := by
  have haddress := @address_startedServer calls six hpicks.zero number k
  have hdir := @dir_startedServer calls six hpicks.zero number k
  refine ⟨?_, ?_, ?_, fun e he hbelow => ?_⟩
  · rw [haddress]
    exact readString_controlPath hpicks.zero _
  · rw [haddress, hdir, controlPath]
  · rwa [haddress]
  · rw [hdir] at hbelow
    rw [haddress]
    rcases List.mem_append.mp he with he | he
    · rcases List.mem_append.mp he with he | he
      · exact absurd hbelow (hpicks.free e he).2
      · obtain rfl := List.mem_singleton.mp he
        exact absurd hbelow (not_below_self _)
    · obtain rfl := List.mem_singleton.mp he
      rfl

end

/-! ## Steps -/

structure HostInv (sunPathSize : Nat) (files : List FileEntry) (host : Host) : Prop where
  perm : host.files.Perm (files ++ host.running.flatMap Running.entries ++ host.left)
  nodup : (host.files.map (·.path)).Nodup
  numbers : (host.running.map (·.number)).Nodup
  lt_next : ∀ r ∈ host.running, r.number < host.next
  placed : ∀ r ∈ host.running, Placed sunPathSize host.files r

section

variable {sunPathSize : Nat} {files : List FileEntry} {host : Host}

theorem HostInv.dir_mem (h : HostInv sunPathSize files host) {r : Running} (hr : r ∈ host.running) :
    ⟨r.dir, .directory⟩ ∈ host.files := by
  refine h.perm.mem_iff.mpr (List.mem_append_left _ (List.mem_append_right _ ?_))
  exact List.mem_flatMap.mpr ⟨r, hr, List.mem_cons_self⟩

theorem hostStep_start (h : HostInv sunPathSize files host) (calls : StartCalls)
    (hout : StartsOutside host (.start calls)) :
    HostInv sunPathSize files (hostStep sunPathSize host (.start calls)) := by
  have hnext : ∀ r ∈ host.running, r.number < host.next + 1 :=
    fun r hr => Nat.lt_succ_of_lt (h.lt_next r hr)
  have hcases := openControlSocket_cases sunPathSize host.files host.next calls
  rw [hostStep]
  generalize openControlSocket sunPathSize host.files host.next calls = result at hcases ⊢
  cases hcases with
  | nothing =>
    refine ⟨?_, h.nodup, h.numbers, hnext, h.placed⟩
    show host.files.Perm (_ ++ (host.left ++ host.files.drop host.files.length))
    rw [List.drop_length, List.append_nil]
    exact h.perm
  | died => exact ⟨h.perm, h.nodup, h.numbers, hnext, h.placed⟩
  | @directory six hsix hpicks =>
    have hsubset : host.files ++ [madeDir calls six] ⊆
        host.files ++ [madeDir calls six] ++ [madeSocket calls six host.next] :=
      List.subset_append_left _ _
    refine ⟨?_, ?_, h.numbers, hnext, fun r hr => ?_⟩
    · show (host.files ++ [madeDir calls six]).Perm
        (_ ++ (host.left ++ (host.files ++ [madeDir calls six]).drop host.files.length))
      rw [List.drop_left, ← List.append_assoc]
      exact h.perm.append_right _
    · have hmade := nodup_made h.nodup hpicks host.next
      rw [List.map_append] at hmade
      exact (List.sublist_append_left _ _).nodup hmade
    · exact ((h.placed r hr).made (h.dir_mem hr) (hout r hr) hpicks host.next).of_subset hsubset
  | @socket six hsix hpicks =>
    refine ⟨?_, nodup_made h.nodup hpicks host.next, h.numbers, hnext, fun r hr => ?_⟩
    · show (host.files ++ [madeDir calls six] ++ [madeSocket calls six host.next]).Perm
        (_ ++ (host.left ++ (host.files ++ [madeDir calls six] ++
          [madeSocket calls six host.next]).drop host.files.length))
      rw [List.append_assoc host.files, List.drop_left, ← List.append_assoc _ host.left]
      exact h.perm.append_right _
    · exact (h.placed r hr).made (h.dir_mem hr) (hout r hr) hpicks host.next
  | @started six k hsix hpicks hlen =>
    refine ⟨?_, nodup_made h.nodup hpicks host.next, ?_, ?_, ?_⟩
    · show (host.files ++ [madeDir calls six] ++ [madeSocket calls six host.next]).Perm
        (files ++ (host.running ++ [startedServer calls six host.next k]).flatMap Running.entries ++
          host.left)
      rw [List.flatMap_append, List.flatMap_singleton, entries_startedServer hpicks.zero,
        List.append_assoc host.files, ← List.append_assoc files, List.append_assoc _ _ host.left]
      refine (h.perm.append_right _).trans ?_
      rw [List.append_assoc _ host.left]
      exact List.perm_append_comm.append_left _
    · show ((host.running ++ [startedServer calls six host.next k]).map (·.number)).Nodup
      rw [List.map_append]
      refine List.nodup_append.mpr ⟨h.numbers, List.nodup_singleton _, ?_⟩
      intro number hnumber number' hnumber' heq
      obtain ⟨r, hr, rfl⟩ := List.mem_map.mp hnumber
      rw [List.mem_singleton.mp hnumber'] at heq
      exact Nat.ne_of_lt (h.lt_next r hr) heq
    · refine List.forall_mem_append.mpr ⟨hnext, List.forall_mem_singleton.mpr ?_⟩
      exact Nat.lt_succ_self _
    · refine List.forall_mem_append.mpr ⟨fun r hr => ?_, List.forall_mem_singleton.mpr ?_⟩
      · exact (h.placed r hr).made (h.dir_mem hr) (hout r hr) hpicks host.next
      · exact placed_startedServer hpicks hlen host.next k

/-- The files of one server among those of all. -/
theorem perm_entries {r : Running} (hr : r ∈ host.running) :
    (host.running.flatMap Running.entries).Perm
      (r.entries ++ (host.running.erase r).flatMap Running.entries) := by
  have hrunning := (List.perm_cons_erase hr).flatMap_right Running.entries
  rwa [List.flatMap_cons] at hrunning

theorem hostStep_stop (h : HostInv sunPathSize files host) (r : Running) :
    HostInv sunPathSize files (hostStep sunPathSize host (.stop r)) := by
  rw [hostStep]
  split
  · next hr =>
    have hperm : host.files.Perm
        (r.entries ++ (files ++ (host.running.erase r).flatMap Running.entries ++ host.left)) := by
      refine h.perm.trans ((((perm_entries hr).append_left files).append_right host.left).trans ?_)
      simp only [List.append_assoc]
      exact List.perm_append_comm_assoc _ _ _
    obtain ⟨files', hremove, hperm', hsublist⟩ :=
      (h.placed r hr).removeControlSocket hperm h.nodup
    rw [hremove]
    refine ⟨hperm', ?_, ?_, ?_, ?_⟩
    · exact (hsublist.map _).nodup h.nodup
    · exact (List.erase_sublist.map _).nodup h.numbers
    · exact fun r' hr' => h.lt_next r' (List.mem_of_mem_erase hr')
    · exact fun r' hr' => (h.placed r' (List.mem_of_mem_erase hr')).of_subset hsublist.subset
  · exact h

theorem hostStep_kill (h : HostInv sunPathSize files host) (r : Running) :
    HostInv sunPathSize files (hostStep sunPathSize host (.kill r)) := by
  rw [hostStep]
  split
  · next hr =>
    refine ⟨?_, h.nodup, ?_, ?_, ?_⟩
    · refine h.perm.trans ((((perm_entries hr).append_left files).append_right host.left).trans ?_)
      simp only [List.append_assoc]
      refine List.Perm.append_left files (List.perm_append_comm.trans ?_)
      rw [List.append_assoc]
    · exact (List.erase_sublist.map _).nodup h.numbers
    · exact fun r' hr' => h.lt_next r' (List.mem_of_mem_erase hr')
    · exact fun r' hr' => h.placed r' (List.mem_of_mem_erase hr')
  · exact h

/-- **One server more or less** does not disturb the others. -/
theorem hostStep_inv (h : HostInv sunPathSize files host) (op : HostOp) (hout : StartsOutside host op) :
    HostInv sunPathSize files (hostStep sunPathSize host op) := by
  cases op with
  | start calls => exact hostStep_start h calls hout
  | stop r => exact hostStep_stop h r
  | kill r => exact hostStep_kill h r

theorem hostInv_new (hfiles : (files.map (·.path)).Nodup) :
    HostInv sunPathSize files (Host.new files) := by
  refine ⟨?_, hfiles, List.nodup_nil, List.forall_mem_nil _, List.forall_mem_nil _⟩
  show files.Perm (files ++ [] ++ [])
  rw [List.append_nil, List.append_nil]

/-- A client that has the path of a server is connected to it. -/
theorem HostInv.connects (h : HostInv sunPathSize files host) {r : Running} (hr : r ∈ host.running)
    {address env : Option (List UInt8)} (haddress : address.or env = some r.address)
    (fromMalloc : Bool) :
    fepClientOpen sunPathSize host.files host.listening address env fromMalloc true =
      .ok (some r.number) := by
  have hplaced := h.placed r hr
  have hmem : ⟨r.address, .socket r.number⟩ ∈ host.files := by
    refine h.perm.mem_iff.mpr (List.mem_append_left _ (List.mem_append_right _ ?_))
    exact List.mem_flatMap.mpr ⟨r, hr, by simp [Running.entries]⟩
  have hfind : host.files.find? (fun e => e.path = r.address) =
      some ⟨r.address, .socket r.number⟩ := by
    cases hlookup : host.files.find? (fun e => e.path = r.address) with
    | none => exact absurd (decide_eq_true rfl) (List.find?_eq_none.mp hlookup _ hmem)
    | some e =>
      have hpath : e.path = r.address := by simpa using List.find?_some hlookup
      rw [List.inj_on_of_nodup_map h.nodup (List.mem_of_find?_eq_some hlookup) hmem hpath]
  have hlistening : host.listening r.number = true :=
    List.any_eq_true.mpr ⟨r, hr, decide_eq_true rfl⟩
  exact fepClientOpen_eq fromMalloc haddress (readString_eq_ok_iff.mp hplaced.read).1 hplaced.length
    hfind hlistening

end

/-- **Servers and their sockets.** Servers start, stop and are killed in any order, and any system call of a
start may fail. As long as no temporary directory is that of another server's socket and a path names one
file wherever it is used, a client that has the path of a running server is connected to this server, and no
two servers are taken for each other. What is there, apart from the files before, belongs to a server that
runs, or has been left by one that was killed or whose start failed. -/
theorem sockets_of_runs (sunPathSize : Nat) {files : List FileEntry}
    (hfiles : (files.map (·.path)).Nodup) (ops : List HostOp)
    (hout : ∀ x ∈ transitions (hostStep sunPathSize) (Host.new files) ops, StartsOutside x.1 x.2) :
    ∀ host ∈ states (hostStep sunPathSize) (Host.new files) ops,
      (∀ r ∈ host.running, ∀ address env fromMalloc, address.or env = some r.address →
        fepClientOpen sunPathSize host.files host.listening address env fromMalloc true =
          .ok (some r.number)) ∧
      (host.running.map (·.number)).Nodup ∧
      host.files.Perm (files ++ host.running.flatMap Running.entries ++ host.left) := by
  have hstep : ∀ host op, HostInv sunPathSize files host → StartsOutside host op →
      (HostInv sunPathSize files (hostStep sunPathSize host op) ↔ True) :=
    fun host op h hop => iff_of_true (hostStep_inv h op hop) trivial
  intro host hhost
  have h := (forall_states_iff hstep (hostInv_new hfiles) hout).mpr (fun _ _ => trivial) host hhost
  exact ⟨fun r hr address env fromMalloc haddress => h.connects hr haddress fromMalloc, h.numbers,
    h.perm⟩

/-- A start with the directory `/tmp/fep-abcde` and one more character. -/
def startAt (last : UInt8) : StartCalls where
  socket := true
  tmpdir := none
  zero_notMem := by simp
  six := some [0x61, 0x62, 0x63, 0x64, 0x65, last]
  bind := true
  listen := true

def tmpOnly : List FileEntry := [⟨[0x2F, 0x74, 0x6D, 0x70], .directory⟩]

/-- Two servers, of which the first one stops again. -/
def firstOfTwoStops : List HostOp :=
  [.start (startAt 0x66), .start (startAt 0x67),
    .stop (startedServer (startAt 0x66) [0x61, 0x62, 0x63, 0x64, 0x65, 0x66] 0 0)]

theorem startsOutside_firstOfTwoStops :
    ∀ x ∈ transitions (hostStep 108) (Host.new tmpOnly) firstOfTwoStops, StartsOutside x.1 x.2 := by
  simp only [firstOfTwoStops, transitions, List.forall_mem_cons]
  exact ⟨List.forall_mem_nil _, by decide +kernel, trivial, List.forall_mem_nil _⟩

def afterFirstOfTwoStops : Host := firstOfTwoStops.foldl (hostStep 108) (Host.new tmpOnly)

theorem sockets_of_runs_firstOfTwoStops :
    (∀ r ∈ afterFirstOfTwoStops.running, ∀ address env fromMalloc,
      address.or env = some r.address →
        fepClientOpen 108 afterFirstOfTwoStops.files afterFirstOfTwoStops.listening address env
          fromMalloc true = .ok (some r.number)) ∧
      (afterFirstOfTwoStops.running.map (·.number)).Nodup ∧
      afterFirstOfTwoStops.files.Perm
        (tmpOnly ++ afterFirstOfTwoStops.running.flatMap Running.entries ++
          afterFirstOfTwoStops.left) :=
  sockets_of_runs 108 (by simp [tmpOnly]) firstOfTwoStops startsOutside_firstOfTwoStops _
    (foldl_mem_states (hostStep 108) (Host.new tmpOnly) firstOfTwoStops)

end LibFep
