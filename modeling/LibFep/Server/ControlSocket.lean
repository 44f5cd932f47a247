import LibFep.Lib.LastMatch
import LibFep.Server.CStrings

/-!
# LibFep — the control socket and its directory

`create_socket_name`, `remove_control_socket`, `_fep_open_control_socket` and `_fep_close_control_socket` of
`fep/control.c`, and `fep_client_open` of `libfep/client.c`, over the files that they make, remove and look
up. The name is put together in a buffer, and cut at its last slash and put together again in place.

* **`createSocketName_cases`** — no step leaves the buffer, and the name is the one the template stands for.
* **`openControlSocket_cases`** — all the ways a server can start, with the files that each leaves.
* **`removeControlSocket_eq`** — the socket is removed, and its directory if there is nothing else in it.
-/

namespace LibFep

open Lib

/-! ## C strings in a buffer -/

def slash : UInt8 := 0x2F

/-- `memcpy (name + start, bytes, count)`. -/
def storeBytes (name : List UInt8) (start : Nat) (bytes : List UInt8) : Except Fault (List UInt8) :=
  if start + bytes.length ≤ name.length then
    .ok (name.take start ++ bytes ++ name.drop (start + bytes.length))
  else .error .badAccess

def strlen (name : List UInt8) : Except Fault Nat := do return (← readString name).length

/-- `strcat (name, str)`. -/
def strcat (name str : List UInt8) : Except Fault (List UInt8) := do
  storeBytes name (← strlen name) (str ++ [0])

/-- `strrchr (name, c)`. -/
def strrchr (name : List UInt8) (c : UInt8) : Except Fault (Option Nat) := do
  let n ← strlen name
  return memrchr name c n

/-! ## Files -/

inductive FileNode where
  | directory
  /-- A socket bound by the server with this number. -/
  | socket (server : Nat)
  | other
  deriving DecidableEq, Repr

structure FileEntry where
  path : List UInt8
  node : FileNode
  deriving DecidableEq, Repr

/-- The path is that of a file below the directory. -/
def Below (dir path : List UInt8) : Prop := dir ++ [slash] <+: path

instance (dir path : List UInt8) : Decidable (Below dir path) :=
  inferInstanceAs (Decidable (_ <+: _))

/-- There is nothing at the path, and so nothing below it. -/
def IsFree (files : List FileEntry) (path : List UInt8) : Prop :=
  ∀ e ∈ files, e.path ≠ path ∧ ¬ Below path e.path

instance (files : List FileEntry) (path : List UInt8) : Decidable (IsFree files path) :=
  inferInstanceAs (Decidable (∀ e ∈ files, _))

def templateEnd : List UInt8 := List.replicate 6 0x58

/-- `mkdtemp (name)`: the six characters it comes up with take the place of the last six, if a directory
can be made there. -/
def mkdtemp (files : List FileEntry) (name : List UInt8) (six : Option (List UInt8)) :
    Except Fault (Option (List UInt8) × List FileEntry) := do
  let str ← readString name
  match six with
  | none => return (none, files)
  | some six =>
    let start := str.length - 6
    let dir := str.take start ++ six
    if str.drop start = templateEnd ∧ six.length = 6 ∧ 0 ∉ six ∧ slash ∉ six ∧ IsFree files dir then
      let name ← storeBytes name start six
      return (some name, files ++ [⟨dir, .directory⟩])
    else return (none, files)

/-- `bind`, for the address that the kernel finds in `sun_path`. -/
def bindSocket (files : List FileEntry) (sunPath : List UInt8) (server : Nat) (succeeds : Bool) :
    Except Fault (Bool × List FileEntry) := do
  let path ← readString sunPath
  if succeeds ∧ ∀ e ∈ files, e.path ≠ path then return (true, files ++ [⟨path, .socket server⟩])
  else return (false, files)

/-- `unlink (path)`, which leaves directories alone. -/
def unlink (files : List FileEntry) (path : List UInt8) : List FileEntry :=
  files.filter fun e => e.path ≠ path ∨ e.node = .directory

/-- `rmdir (path)`, which leaves a directory alone if there is something in it. -/
def rmdir (files : List FileEntry) (path : List UInt8) : List FileEntry :=
  if ∃ e ∈ files, Below path e.path then files
  else files.filter fun e => e.path ≠ path ∨ e.node ≠ .directory

/-! ## The server -/

/-- `getenv ("TMPDIR")`, or `/tmp` where it is not set or empty. -/
def tmpDir (tmpdir : Option (List UInt8)) : List UInt8 :=
  match tmpdir with
  | none | some [] => [0x2F, 0x74, 0x6D, 0x70]
  | some p => p

def addSlash (p name : List UInt8) : Except Fault (List UInt8) :=
  if p.getLast? ≠ some slash then strcat name [slash] else .ok name

/-- The template behind the temporary directory, in a buffer made for both. -/
def joinSocketName (tmpdir : Option (List UInt8)) (template : List UInt8) :
    Except Fault (List UInt8) := do
  let p := tmpDir tmpdir
  let len := p.length + template.length + 2
  let name ← storeBytes (List.replicate len 0) 0 p
  let name ← addSlash p name
  strcat name template

/-- The first component of the result is the buffer of the name, `none` for `NULL`. -/
def createSocketName (files : List FileEntry) (tmpdir : Option (List UInt8)) (template : List UInt8)
    (six : Option (List UInt8)) : Except Fault (Option (List UInt8) × List FileEntry) := do
  let name ← joinSocketName tmpdir template
  match ← strrchr name slash with
  | none => .error .badAccess
  | some i => do
    let name ← storeBytes name i [0]
    match ← mkdtemp files name six with
    | (none, files) => return (none, files)
    | (some name, files) => do
      let name ← storeBytes name i [slash]
      return (some name, files)

/-- `"fep-XXXXXX/control"`. -/
def controlTemplate : List UInt8 :=
  [0x66, 0x65, 0x70, 0x2D] ++ templateEnd ++ slash :: [0x63, 0x6F, 0x6E, 0x74, 0x72, 0x6F, 0x6C]

def removeControlSocket (files : List FileEntry) (path : List UInt8) :
    Except Fault (List FileEntry) := do
  let str ← readString path
  let path := str ++ [0]
  let files := unlink files str
  let some i ← strrchr path slash | .error .assertion
  let path ← storeBytes path i [0]
  return rmdir files (← readString path)

/-- The results of the system calls of a start. -/
structure StartCalls where
  socket : Bool
  tmpdir : Option (List UInt8)
  zero_notMem : ∀ p ∈ tmpdir, 0 ∉ p
  /-- The characters that `mkdtemp` tries, `none` if it fails. -/
  six : Option (List UInt8)
  bind : Bool
  listen : Bool

section

-- `sizeof (sun.sun_path)`
variable (sunPathSize : Nat)

/-- `sun.sun_path` after the `memcpy` of a path. -/
def fillSunPath (str : List UInt8) : Except Fault (List UInt8) :=
  storeBytes (List.replicate sunPathSize 0) 0 str

/-- `bind` and `listen`. -/
def bindControlSocket (files : List FileEntry) (server : Nat) (calls : StartCalls) (path : List UInt8) :
    Except Fault (Bool × List FileEntry) := do
  let sunPath ← fillSunPath sunPathSize (← readString path)
  match ← bindSocket files sunPath server calls.bind with
  | (false, files) => return (false, files)
  | (true, files) => return (calls.listen, files)

/-- `_fep_open_control_socket` of the server with a number: `control_socket_path`, or `none` for -1. The
name is not checked for `NULL`. -/
def openControlSocket (files : List FileEntry) (server : Nat) (calls : StartCalls) :
    Except Fault (Option (List UInt8) × List FileEntry) := do
  if !calls.socket then return (none, files)
  match ← createSocketName files calls.tmpdir controlTemplate calls.six with
  | (none, _) => .error .badAccess
  | (some path, files) => do
    if (← strlen path) + 1 ≥ sunPathSize then return (none, files)
    match ← bindControlSocket sunPathSize files server calls path with
    | (false, files) => return (none, files)
    | (true, files) => return (some path, files)

/-- `connect`, for the address that the kernel finds in `sun_path`. -/
def connectSocket (files : List FileEntry) (listening : Nat → Bool) (sunPath : List UInt8) :
    Except Fault (Option Nat) := do
  let path ← readString sunPath
  match files.find? fun e => e.path = path with
  | some ⟨_, .socket server⟩ => return if listening server then some server else none
  | _ => return none

/-- `fep_client_open`: the server that the client is connected to. An address that is too long is freed,
whoever it belongs to. -/
def fepClientOpen (files : List FileEntry) (listening : Nat → Bool) (address env : Option (List UInt8))
    (fromMalloc socket : Bool) : Except Fault (Option Nat) :=
  match address.or env with
  | none => .ok none
  | some str => do
    if str.length + 1 ≥ sunPathSize then
      if address.isSome && fromMalloc then return none else .error .badAccess
    let sunPath ← fillSunPath sunPathSize str
    if !socket then return none
    connectSocket files listening sunPath

end

/-! ## What becomes of a buffer -/

theorem storeBytes_eq (before old behind new : List UInt8) (hlen : new.length = old.length) :
    storeBytes (before ++ old ++ behind) before.length new = .ok (before ++ new ++ behind) := by
  have htake : (before ++ old ++ behind).take before.length = before := by
    rw [List.append_assoc, List.take_left]
  have hdrop : (before ++ old ++ behind).drop (before.length + new.length) = behind := by
    rw [hlen, ← List.length_append, List.drop_left]
  rw [storeBytes, if_pos (by simp only [List.length_append]; omega), htake, hdrop]

/-- `name[i] = d`. -/
theorem storeByte_eq (before behind : List UInt8) (c d : UInt8) :
    storeBytes (before ++ c :: behind) before.length [d] = .ok (before ++ d :: behind) := by
  have hcell := storeBytes_eq before [c] behind [d] rfl
  rwa [List.append_assoc, List.append_assoc] at hcell

theorem storeBytes_zeros (before new : List UInt8) {k : Nat} (hk : new.length ≤ k) :
    storeBytes (before ++ List.replicate k 0) before.length new =
      .ok (before ++ new ++ List.replicate (k - new.length) 0) := by
  have hsplit : before ++ List.replicate k (0 : UInt8) =
      before ++ List.replicate new.length 0 ++ List.replicate (k - new.length) 0 := by
    rw [List.append_assoc, List.replicate_append_replicate, Nat.add_sub_cancel' hk]
  rw [hsplit]
  exact storeBytes_eq before _ _ new List.length_replicate.symm

theorem readString_zeros {str : List UInt8} (h : 0 ∉ str) {k : Nat} (hk : 0 < k) :
    readString (str ++ List.replicate k 0) = .ok str := by
  obtain ⟨k, rfl⟩ := Nat.exists_eq_succ_of_ne_zero (Nat.pos_iff_ne_zero.mp hk)
  exact readString_eq_ok_iff.mpr ⟨h, _, rfl⟩

/-- A string is added to the one that a buffer of zeros holds, if there is room for its end. -/
theorem strcat_zeros {str : List UInt8} (h : 0 ∉ str) (more : List UInt8) {k : Nat}
    (hk : more.length < k) :
    strcat (str ++ List.replicate k 0) more =
      .ok (str ++ more ++ List.replicate (k - more.length) 0) := by
  have hend : List.replicate (k - more.length) (0 : UInt8) =
      [0] ++ List.replicate (k - (more ++ [0]).length) 0 := by
    rw [List.length_append, List.length_singleton, ← List.replicate_one,
      List.replicate_append_replicate]
    congr 1
    omega
  rw [strcat, strlen, readString_zeros h (by omega)]
  show storeBytes _ str.length (more ++ [0]) = _
  rw [storeBytes_zeros str (more ++ [0]) (by rw [List.length_append, List.length_singleton]; omega),
    hend]
  simp only [List.append_assoc]

theorem strrchr_eq {before behind rest : List UInt8} {c : UInt8} (hc : c ≠ 0)
    (hbefore : 0 ∉ before) (hzero : 0 ∉ behind) (hbehind : c ∉ behind) :
    strrchr (before ++ c :: behind ++ 0 :: rest) c = .ok (some before.length) := by
  have hread : readString (before ++ c :: behind ++ 0 :: rest) = .ok (before ++ c :: behind) := by
    refine readString_eq_ok_iff.mpr ⟨?_, rest, rfl⟩
    simp [hbefore, hzero, hc.symm]
  rw [strrchr, strlen, hread]
  refine congrArg Except.ok (memrchr_eq_some_iff.mpr ⟨?_, ?_, fun j hj hlt => ?_⟩)
  · simp
  · rw [List.append_assoc, List.getElem?_append_right (Nat.le_refl _), Nat.sub_self]
    rfl
  · rw [List.getElem?_append_left hj, List.getElem?_append_right (Nat.le_of_lt hlt)]
    obtain ⟨k, hk⟩ := Nat.exists_eq_add_of_lt hlt
    rw [show j - before.length = k + 1 by omega, List.getElem?_cons_succ]
    exact fun hget => hbehind (List.mem_of_getElem? hget)

/-! ## The name of the socket -/

/-- The temporary directory with a slash behind it. -/
def tmpStem (tmpdir : Option (List UInt8)) : List UInt8 :=
  if (tmpDir tmpdir).getLast? ≠ some slash then tmpDir tmpdir ++ [slash] else tmpDir tmpdir

def controlDir (tmpdir : Option (List UInt8)) (six : List UInt8) : List UInt8 :=
  tmpStem tmpdir ++ [0x66, 0x65, 0x70, 0x2D] ++ six

/-- `"control"`. -/
def controlName : List UInt8 := [0x63, 0x6F, 0x6E, 0x74, 0x72, 0x6F, 0x6C]

/-- The characters with which `mkdtemp` can make a directory. -/
structure Picks (files : List FileEntry) (tmpdir : Option (List UInt8)) (six : List UInt8) : Prop where
  length : six.length = 6
  zero : 0 ∉ six
  slash : slash ∉ six
  free : IsFree files (controlDir tmpdir six)

theorem zero_notMem_tmpDir {tmpdir : Option (List UInt8)} (h : ∀ p ∈ tmpdir, 0 ∉ p) :
    0 ∉ tmpDir tmpdir := by
  unfold tmpDir
  split
  · decide
  · decide
  · next p _ => exact h p rfl

theorem zero_notMem_tmpStem {tmpdir : Option (List UInt8)} (h : ∀ p ∈ tmpdir, 0 ∉ p) :
    0 ∉ tmpStem tmpdir := by
  have hp := zero_notMem_tmpDir h
  unfold tmpStem
  split
  · simp [hp, slash]
  · exact hp

theorem zero_notMem_controlDir {tmpdir : Option (List UInt8)} (h : ∀ p ∈ tmpdir, 0 ∉ p)
    {six : List UInt8} (hsix : 0 ∉ six) : 0 ∉ controlDir tmpdir six := by
  simp [controlDir, zero_notMem_tmpStem h, hsix]

/-- The name fits in the buffer, and zeros are left behind it. -/
theorem joinSocketName_eq {tmpdir : Option (List UInt8)} (h : ∀ p ∈ tmpdir, 0 ∉ p)
    (template : List UInt8) :
    ∃ k, joinSocketName tmpdir template =
      .ok (tmpStem tmpdir ++ template ++ 0 :: List.replicate k 0) := by
  have hfits : (tmpDir tmpdir).length ≤ (tmpDir tmpdir).length + template.length + 2 := by omega
  have hfirst := storeBytes_zeros [] (tmpDir tmpdir) hfits
  rw [List.nil_append, List.nil_append, Nat.add_assoc, Nat.add_sub_cancel_left] at hfirst
  obtain ⟨k, hslash⟩ : ∃ k, addSlash (tmpDir tmpdir)
      (tmpDir tmpdir ++ List.replicate (template.length + 2) 0) =
      .ok (tmpStem tmpdir ++ List.replicate (template.length + (k + 1)) 0) := by
    unfold addSlash tmpStem
    split
    · refine ⟨0, ?_⟩
      rw [strcat_zeros (zero_notMem_tmpDir h) [slash] (by rw [List.length_singleton]; omega)]
      rfl
    · exact ⟨1, rfl⟩
  refine ⟨k, ?_⟩
  unfold joinSocketName
  dsimp only
  rw [Nat.add_assoc]
  show (storeBytes (List.replicate _ 0) (List.length ([] : List UInt8)) _ >>= _) = _
  rw [hfirst, ok_bind, hslash, ok_bind, strcat_zeros (zero_notMem_tmpStem h) template (by omega),
    Nat.add_sub_cancel_left, List.replicate_succ]

theorem mkdtemp_cases (files : List FileEntry) {start : List UInt8} (h : 0 ∉ start)
    (behind : List UInt8) (six : Option (List UInt8)) :
    mkdtemp files (start ++ templateEnd ++ 0 :: behind) six = .ok (none, files) ∨
      ∃ s, six = some s ∧ s.length = 6 ∧ 0 ∉ s ∧ slash ∉ s ∧ IsFree files (start ++ s) ∧
        mkdtemp files (start ++ templateEnd ++ 0 :: behind) six =
          .ok (some (start ++ s ++ 0 :: behind), files ++ [⟨start ++ s, .directory⟩]) := by
  have hend : 0 ∉ templateEnd := by decide
  have hread : readString (start ++ templateEnd ++ 0 :: behind) = .ok (start ++ templateEnd) :=
    readString_eq_ok_iff.mpr ⟨by simp [h, hend], behind, rfl⟩
  have hlen : (start ++ templateEnd).length - 6 = start.length := by
    rw [List.length_append]
    rfl
  unfold mkdtemp
  rw [hread, ok_bind]
  cases six with
  | none => exact Or.inl rfl
  | some s =>
    dsimp only
    rw [hlen, List.take_left, List.drop_left]
    split
    · next hcond =>
      obtain ⟨-, hsix, hzero, hslash, hfree⟩ := hcond
      right
      refine ⟨s, rfl, hsix, hzero, hslash, hfree, ?_⟩
      rw [storeBytes_eq start templateEnd (0 :: behind) s hsix]
      rfl
    · exact Or.inl rfl

/-- **The name of the socket.** Either `mkdtemp` fails, or the six characters it has picked stand in the
name, and their directory is new. -/
theorem createSocketName_cases (files : List FileEntry) {tmpdir : Option (List UInt8)}
    (h : ∀ p ∈ tmpdir, 0 ∉ p) (six : Option (List UInt8)) :
    createSocketName files tmpdir controlTemplate six = .ok (none, files) ∨
      ∃ s k, six = some s ∧ Picks files tmpdir s ∧
        createSocketName files tmpdir controlTemplate six =
          .ok (some (controlDir tmpdir s ++ slash :: controlName ++ 0 :: List.replicate k 0),
            files ++ [⟨controlDir tmpdir s, .directory⟩]) := by
  obtain ⟨k, hjoin⟩ := joinSocketName_eq h controlTemplate
  obtain ⟨start, hstart⟩ : ∃ start, start = tmpStem tmpdir ++ [0x66, 0x65, 0x70, 0x2D] := ⟨_, rfl⟩
  have hzero : 0 ∉ start := by
    rw [hstart]
    simp [zero_notMem_tmpStem h]
  have hend : 0 ∉ templateEnd := by decide
  obtain ⟨behind, hbehind⟩ : ∃ behind, behind = controlName ++ 0 :: List.replicate k 0 := ⟨_, rfl⟩
  have hname : tmpStem tmpdir ++ controlTemplate ++ 0 :: List.replicate k 0 =
      start ++ templateEnd ++ slash :: behind := by
    rw [hstart, hbehind]
    simp [controlTemplate, controlName]
  have hslash : strrchr (start ++ templateEnd ++ slash :: behind) slash =
      .ok (some (start ++ templateEnd).length) := by
    have hlast := @strrchr_eq (start ++ templateEnd) controlName (List.replicate k 0) slash
      (by decide) (by simp [hzero, hend]) (by decide) (by decide)
    rwa [List.append_assoc, List.cons_append, ← hbehind] at hlast
  have hcreate : createSocketName files tmpdir controlTemplate six =
      (mkdtemp files (start ++ templateEnd ++ 0 :: behind) six >>= fun made => match made with
        | (none, files) => .ok (none, files)
        | (some name, files) =>
          storeBytes name (start ++ templateEnd).length [slash] >>= fun name =>
            .ok (some name, files)) := by
    unfold createSocketName
    rw [hjoin, ok_bind, hname, hslash, ok_bind]
    dsimp only
    rw [storeByte_eq]
    rfl
  rcases mkdtemp_cases files hzero behind six with hnone | ⟨s, hsix, hlen, hs, hsep, hfree, hsome⟩
  · left
    rw [hcreate, hnone]
    rfl
  · right
    have hdir : start ++ s = controlDir tmpdir s := by rw [hstart, controlDir]
    have hlen' : (start ++ templateEnd).length = (start ++ s).length := by
      rw [List.length_append, List.length_append, hlen]
      rfl
    refine ⟨s, k, hsix, ⟨hlen, hs, hsep, hdir ▸ hfree⟩, ?_⟩
    rw [hcreate, hsome, ok_bind]
    dsimp only
    rw [hlen', storeByte_eq, hdir, hbehind, ok_bind, List.append_assoc, List.cons_append]

/-! ## Starting and stopping -/

/-- The path of the socket. -/
def controlPath (tmpdir : Option (List UInt8)) (six : List UInt8) : List UInt8 :=
  controlDir tmpdir six ++ slash :: controlName

/-- How a start ends, with the path of the socket if it succeeds, and the files it has made. -/
inductive StartResult (sunPathSize : Nat) (files : List FileEntry) (server : Nat) (calls : StartCalls) :
    Except Fault (Option (List UInt8) × List FileEntry) → Prop
  | nothing : StartResult sunPathSize files server calls (.ok (none, files))
  /-- `mkdtemp` fails, and the length of `NULL` is taken. -/
  | died : StartResult sunPathSize files server calls (.error .badAccess)
  /-- The path is too long, or `bind` fails. -/
  | directory {six} (hsix : calls.six = some six) (hpicks : Picks files calls.tmpdir six) :
      StartResult sunPathSize files server calls
        (.ok (none, files ++ [⟨controlDir calls.tmpdir six, .directory⟩]))
  /-- `listen` fails. -/
  | socket {six} (hsix : calls.six = some six) (hpicks : Picks files calls.tmpdir six) :
      StartResult sunPathSize files server calls
        (.ok (none, files ++ [⟨controlDir calls.tmpdir six, .directory⟩] ++
          [⟨controlPath calls.tmpdir six, .socket server⟩]))
  | started {six} {k : Nat} (hsix : calls.six = some six) (hpicks : Picks files calls.tmpdir six)
      (hlen : (controlPath calls.tmpdir six).length + 1 < sunPathSize) :
      StartResult sunPathSize files server calls
        (.ok (some (controlPath calls.tmpdir six ++ 0 :: List.replicate k 0),
          files ++ [⟨controlDir calls.tmpdir six, .directory⟩] ++
          [⟨controlPath calls.tmpdir six, .socket server⟩]))

theorem readString_controlPath {calls : StartCalls} {six : List UInt8} (h : 0 ∉ six)
    (rest : List UInt8) :
    readString (controlPath calls.tmpdir six ++ 0 :: rest) = .ok (controlPath calls.tmpdir six) := by
  have hdir := zero_notMem_controlDir calls.zero_notMem h
  have hname : 0 ∉ slash :: controlName := by decide
  exact readString_eq_ok_iff.mpr ⟨by simp [controlPath, hdir, hname], rest, rfl⟩

/-- A path that is short enough ends in `sun_path`. -/
theorem fillSunPath_eq {sunPathSize : Nat} {str : List UInt8} (h : 0 ∉ str)
    (hlen : str.length < sunPathSize) :
    ∃ sunPath, fillSunPath sunPathSize str = .ok sunPath ∧ readString sunPath = .ok str := by
  have hfill := storeBytes_zeros [] str (Nat.le_of_lt hlen)
  exact ⟨_, hfill, readString_zeros h (Nat.sub_pos_of_lt hlen)⟩

theorem bindControlSocket_cases {sunPathSize : Nat} (files : List FileEntry) (server : Nat)
    (calls : StartCalls) {path str : List UInt8} (hread : readString path = .ok str)
    (hlen : str.length < sunPathSize) :
    bindControlSocket sunPathSize files server calls path = .ok (false, files) ∨
      bindControlSocket sunPathSize files server calls path =
        .ok (calls.listen, files ++ [⟨str, .socket server⟩]) := by
  have hzero : 0 ∉ str := (readString_eq_ok_iff.mp hread).1
  obtain ⟨sunPath, hfill, hsun⟩ := fillSunPath_eq hzero hlen
  unfold bindControlSocket bindSocket
  rw [hread, ok_bind, hfill, ok_bind, hsun, ok_bind]
  split
  · exact Or.inr rfl
  · exact Or.inl rfl

/-- **How a server starts.** -/
theorem openControlSocket_cases (sunPathSize : Nat) (files : List FileEntry) (server : Nat)
    (calls : StartCalls) :
    StartResult sunPathSize files server calls
      (openControlSocket sunPathSize files server calls) := by
  unfold openControlSocket
  cases calls.socket with
  | false => exact .nothing
  | true =>
    rcases createSocketName_cases files calls.zero_notMem calls.six with
      hnone | ⟨six, k, hsix, hpicks, hsome⟩
    · rw [hnone]
      exact .died
    · have hread : readString
          (controlDir calls.tmpdir six ++ slash :: controlName ++ 0 :: List.replicate k 0) =
          .ok (controlPath calls.tmpdir six) := readString_controlPath hpicks.zero _
      rw [hsome]
      show StartResult _ _ _ _ (strlen _ >>= _)
      rw [strlen, hread]
      show StartResult _ _ _ _ (if _ then _ else _)
      split
      · exact .directory hsix hpicks
      · next hlen =>
        have hlt : (controlPath calls.tmpdir six).length + 1 < sunPathSize := Nat.lt_of_not_le hlen
        rcases bindControlSocket_cases
          (files ++ [⟨controlDir calls.tmpdir six, .directory⟩]) server calls hread
          (Nat.lt_of_succ_lt hlt) with hfails | hbound
        · rw [hfails]
          exact .directory hsix hpicks
        · rw [hbound]
          cases calls.listen with
          | false => exact .socket hsix hpicks
          | true => exact .started hsix hpicks hlt

theorem removeControlSocket_eq (files : List FileEntry) {path dir : List UInt8}
    (hread : readString path = .ok (dir ++ slash :: controlName)) :
    removeControlSocket files path =
      .ok (rmdir (unlink files (dir ++ slash :: controlName)) dir) := by
  have hzero : 0 ∉ dir := fun hmem =>
    (readString_eq_ok_iff.mp hread).1 (List.mem_append_left _ hmem)
  have hslash := @strrchr_eq dir controlName [] slash (by decide) hzero (by decide) (by decide)
  have hdir : readString (dir ++ 0 :: (controlName ++ [0])) = .ok dir :=
    readString_eq_ok_iff.mpr ⟨hzero, _, rfl⟩
  have hcut := storeByte_eq dir (controlName ++ [0]) slash 0
  rw [← List.cons_append, ← List.append_assoc] at hcut
  unfold removeControlSocket
  rw [hread, ok_bind]
  dsimp only
  rw [hslash, ok_bind]
  dsimp only
  rw [hcut, ok_bind, hdir]
  rfl

/-- A client with an address that is short enough is connected to the server that listens there. -/
theorem fepClientOpen_eq {sunPathSize : Nat} {files : List FileEntry} {listening : Nat → Bool}
    {address env : Option (List UInt8)} (fromMalloc : Bool) {str : List UInt8} {server : Nat}
    (hstr : address.or env = some str) (hzero : 0 ∉ str) (hlen : str.length + 1 < sunPathSize)
    (hfind : files.find? (fun e => e.path = str) = some ⟨str, .socket server⟩)
    (hlistening : listening server = true) :
    fepClientOpen sunPathSize files listening address env fromMalloc true = .ok (some server) := by
  obtain ⟨sunPath, hfill, hsun⟩ := fillSunPath_eq hzero (Nat.lt_of_succ_lt hlen)
  unfold fepClientOpen
  rw [hstr]
  dsimp only
  rw [if_neg (Nat.not_le_of_lt hlen), hfill]
  show connectSocket files listening sunPath = _
  rw [connectSocket, hsun, ok_bind, hfind]
  dsimp only
  rw [hlistening]
  rfl

end LibFep
