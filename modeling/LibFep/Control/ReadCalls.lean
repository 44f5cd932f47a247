import LibFep.Lib.Runs
import LibFep.Control.Fragments
import LibFep.Control.RoundTrip

/-!
# LibFep — the calls of `read`

`_fep_read_control_message` one `read` after the other: what each call asks for, and what it adds to the
argument that is being read. `readControlMessage` is the outcome of the calls.

* **`readControlMessage_eq_outcome`** — the reader is the run of its calls.
* **`withinBuffer_step_iff`** — a call keeps the counts below `BUFSIZ` and the argument below its length
  exactly if the length word that it returns, if any, is one that the reader can hold.
* **`withinBuffer_iff`** — the streams on which this is so throughout.
-/

namespace LibFep

open Lib

/-! ## The reader, call by call -/

/-- The next thing to be read. The arguments are there with the length words announced for them. -/
inductive ReaderState where
  | commandByte
  /-- A length word, with the number of arguments behind this one. -/
  | lengthWord (command : FepControlCommand) (args : List (BitVec 32 × List UInt8)) (left : Nat)
  /-- The rest of an argument, `len` bytes more. -/
  | body (command : FepControlCommand) (args : List (BitVec 32 × List UInt8)) (left : Nat)
      (announced : BitVec 32) (arg : List UInt8) (len : Nat)
  /-- Nothing: the reader has returned 0. -/
  | message (command : FepControlCommand) (args : List (BitVec 32 × List UInt8))
  /-- Nothing: it has returned -1. -/
  | failed
  | overrun
  | died
  deriving DecidableEq, Repr

/-- The number of bytes the next `read` asks for, 0 if there is none. -/
def ReaderState.count : ReaderState → Nat
  | .commandByte => 1
  | .lengthWord _ _ _ => 4
  | .body _ _ _ _ _ len => len
  | .message _ _ | .failed | .overrun | .died => 0

/-- Behind an argument. -/
def afterArg (command : FepControlCommand) (args : List (BitVec 32 × List UInt8)) :
    Nat → ReaderState
  | 0 => .message command args
  | left + 1 => .lengthWord command args left

/-- The test `len > 0` of the loop for the body of an argument. -/
def atBody (command : FepControlCommand) (args : List (BitVec 32 × List UInt8)) (left : Nat)
    (announced : BitVec 32) (arg : List UInt8) : Nat → ReaderState
  | 0 => afterArg command (args ++ [(announced, arg)]) left
  | len + 1 => .body command args left announced arg (len + 1)

/-- What the reader does with the bytes that a call has stored in `buf`, `none` for the return value -1. -/
def ReaderState.receive (p : Platform) : ReaderState → Option (List UInt8) → ReaderState
  | .commandByte, some [byte] =>
    match controlCommandGetNArgs byte with
    | none => .died
    | some (command, nArgs) => afterArg command [] nArgs
  | .lengthWord command args left, some [b0, b1, b2, b3] =>
    atBody command args left (ofLeBytes b0 b1 b2 b3) [] (p.assembleLength b0 b1 b2 b3).toNat
  | .body command args left announced arg len, some bytes =>
    if p.bufsiz < bytes.length then .overrun
    else atBody command args left announced (arg ++ bytes) (len - bytes.length)
  | .commandByte, _ | .lengthWord _ _ _, _ | .body _ _ _ _ _ _, none => .failed
  | s, _ => s

/-- The reader, and the bytes that the peer has sent and no call has returned. -/
structure Reading where
  state : ReaderState
  pending : List UInt8
  deriving DecidableEq, Repr

/-- The bytes that a call with this result stores. -/
def Reading.stored (s : Reading) : ReadResult → Option (List UInt8)
  | .error => none
  | result => some (s.pending.take (result.limit s.state.count))

def readerStep (p : Platform) (s : Reading) (result : ReadResult) : Reading :=
  if s.state.count = 0 then s
  else ⟨s.state.receive p (s.stored result), s.pending.drop (result.limit s.state.count)⟩

/-! ## The outcome of the calls -/

/-- What the reader has done when it is in a state, with the results that are left. -/
def Reading.outcome (s : Reading) (results : List ReadResult) :
    Outcome (Option FepControlMessage) :=
  match s.state with
  | .message command args => .ret (some ⟨command, args.map (·.2)⟩) ⟨s.pending, results⟩
  | .failed => .ret none ⟨s.pending, results⟩
  | .overrun => .overrun
  | .died => .died
  | .commandByte | .lengthWord _ _ _ | .body _ _ _ _ _ _ => .blocked

theorem foldl_readerStep_of_done (p : Platform) {s : Reading} (h : s.state.count = 0)
    (results : List ReadResult) : results.foldl (readerStep p) s = s := by
  induction results with
  | nil => rfl
  | cons result results ih => rw [List.foldl_cons, readerStep, if_pos h, ih]

/-- The calls of a part of the reader: where it returns a value they come to a state for it, and where it
does not they come to the state that says why. -/
def Reaches {α : Type} (p : Platform) (o : Outcome (Option α)) (next : α → ReaderState → Prop)
    (final : Reading) : Prop :=
  match o with
  | .ret (some a) fd =>
    ∃ s, next a s ∧ final = fd.results.foldl (readerStep p) ⟨s, fd.pending⟩
  | .ret none fd => final = ⟨.failed, fd.pending⟩
  | .blocked => final.outcome [] = .blocked
  | .overrun => final.state = .overrun
  | .died => final.state = .died

theorem Reaches.mono {α : Type} {p : Platform} {o : Outcome (Option α)}
    {next next' : α → ReaderState → Prop} {final : Reading} (h : Reaches p o next final)
    (hnext : ∀ a s, next a s → next' a s) : Reaches p o next' final := by
  cases o with
  | ret value fd =>
    cases value with
    | none => exact h
    | some a =>
      obtain ⟨s, hs, hfinal⟩ := h
      exact ⟨s, hnext a s hs, hfinal⟩
  | blocked => exact h
  | overrun => exact h
  | died => exact h

theorem Reaches.bind {α β : Type} {p : Platform} {o : Outcome (Option α)}
    {next : α → ReaderState → Prop} {final : Reading} (h : Reaches p o next final)
    {f : Option α → Fd → Outcome (Option β)} {next' : β → ReaderState → Prop}
    (hnone : ∀ fd, f none fd = .ret none fd)
    (hsome : ∀ a s fd, next a s →
      Reaches p (f (some a) fd) next' (fd.results.foldl (readerStep p) ⟨s, fd.pending⟩)) :
    Reaches p (o.bind f) next' final := by
  cases o with
  | ret value fd =>
    cases value with
    | none =>
      show Reaches p (f none fd) next' final
      rw [hnone]
      exact h
    | some a =>
      obtain ⟨s, hs, rfl⟩ := h
      exact hsome a s fd hs
  | blocked => exact h
  | overrun => exact h
  | died => exact h

/-- A call that stores bytes. -/
theorem readerStep_of_ne (p : Platform) {s : Reading} (hs : s.state.count ≠ 0) {result : ReadResult}
    (hr : result ≠ .error) :
    readerStep p s result =
      ⟨s.state.receive p (some (s.pending.take (result.limit s.state.count))),
        s.pending.drop (result.limit s.state.count)⟩ := by
  rw [readerStep, if_neg hs]
  cases result with
  | error => exact absurd rfl hr
  | short k => rfl
  | full => rfl

theorem reaches_readArgBody (p : Platform) (command : FepControlCommand)
    (args : List (BitVec 32 × List UInt8)) (left : Nat) (announced : BitVec 32)
    (results : List ReadResult) (pending : List UInt8) (len : Nat) (arg : List UInt8) :
    Reaches p (readArgBody p results pending len arg)
      (fun a s => s = afterArg command (args ++ [(announced, a)]) left)
      (results.foldl (readerStep p) ⟨atBody command args left announced arg len, pending⟩) := by
  fun_induction readArgBody p results pending len arg with
  | case1 results pending arg => exact ⟨_, rfl, rfl⟩
  | case2 => exact rfl
  | case3 results pending len arg =>
    -- the call returns -1
    have hstep : readerStep p ⟨atBody command args left announced arg (len + 1), pending⟩ .error =
        ⟨.failed, pending⟩ := rfl
    show List.foldl _ _ _ = _
    rw [List.foldl_cons, hstep, foldl_readerStep_of_done p rfl]
  | case4 result results pending len arg hne bytes hover =>
    have hstep := @readerStep_of_ne p
      ⟨.body command args left announced arg (len + 1), pending⟩ (Nat.succ_ne_zero len) result hne
    have hreceive : ReaderState.receive p (.body command args left announced arg (len + 1))
        (some bytes) = .overrun := if_pos hover
    show Reading.state (List.foldl _ _ _) = _
    rw [List.foldl_cons, atBody, hstep]
    exact congrArg Reading.state (foldl_readerStep_of_done p (congrArg ReaderState.count hreceive) _)
      |>.trans hreceive
  | case5 result results pending len arg hne bytes hfits ih =>
    have hstep := @readerStep_of_ne p
      ⟨.body command args left announced arg (len + 1), pending⟩ (Nat.succ_ne_zero len) result hne
    have hreceive : ReaderState.receive p (.body command args left announced arg (len + 1))
        (some bytes) =
          atBody command args left announced (arg ++ bytes) (len + 1 - bytes.length) := if_neg hfits
    have hnext : readerStep p ⟨atBody command args left announced arg (len + 1), pending⟩ result =
        ⟨atBody command args left announced (arg ++ bytes) (len + 1 - bytes.length),
          pending.drop (result.limit (len + 1))⟩ :=
      hstep.trans (congrArg (Reading.mk · _) hreceive)
    rw [List.foldl_cons, hnext]
    exact ih

theorem reaches_readArg (p : Platform) (command : FepControlCommand)
    (args : List (BitVec 32 × List UInt8)) (left : Nat) (fd : Fd) :
    Reaches p (readArg p fd) (fun a s => ∃ w, s = afterArg command (args ++ [(w, a)]) left)
      (fd.results.foldl (readerStep p) ⟨.lengthWord command args left, fd.pending⟩) := by
  obtain ⟨pending, results⟩ := fd
  cases results with
  | nil => exact rfl
  | cons result results =>
    by_cases hr : result = .error
    · subst hr
      exact foldl_readerStep_of_done p rfl results
    · have hstep := @readerStep_of_ne p ⟨.lengthWord command args left, pending⟩ (by simp [ReaderState.count])
        result hr
      rw [readArg, read_cons hr, List.foldl_cons, hstep]
      simp only [ReaderState.count, Outcome.bind]
      -- four bytes are a length word, and fewer are not
      rcases pending.take (result.limit 4) with
        _ | ⟨b0, _ | ⟨b1, _ | ⟨b2, _ | ⟨b3, _ | ⟨b4, bytes⟩⟩⟩⟩⟩
      case cons.cons.cons.cons.nil =>
        have hbody := reaches_readArgBody p command args left (ofLeBytes b0 b1 b2 b3) results
          (pending.drop (result.limit 4)) (p.assembleLength b0 b1 b2 b3).toNat []
        exact hbody.mono fun a s hs => ⟨_, hs⟩
      all_goals exact foldl_readerStep_of_done p rfl results

/-- Induction on the number of arguments left. -/
theorem reaches_readArgs (p : Platform) (command : FepControlCommand)
    (args : List (BitVec 32 × List UInt8)) (n : Nat) (fd : Fd) :
    Reaches p (readArgs p n fd)
      (fun rest s => ∃ read, s = .message command read ∧ read.map (·.2) = args.map (·.2) ++ rest)
      (fd.results.foldl (readerStep p) ⟨afterArg command args n, fd.pending⟩) := by
  induction n generalizing args fd with
  | zero => exact ⟨_, ⟨args, rfl, by simp⟩, rfl⟩
  | succ n ih =>
    rw [readArgs]
    refine (reaches_readArg p command args n fd).bind ?_ ?_
    · exact fun fd' => rfl
    rintro arg _ fd' ⟨w, rfl⟩
    refine (ih (args ++ [(w, arg)]) fd').bind ?_ ?_
    · exact fun fd'' => rfl
    rintro rest _ fd'' ⟨read, rfl, hread⟩
    exact ⟨_, ⟨read, rfl, by rw [hread]; simp⟩, rfl⟩

theorem reaches_readControlMessage (p : Platform) (fd : Fd) :
    Reaches p (readControlMessage p fd)
      (fun message s => ∃ read, s = .message message.command read ∧ read.map (·.2) = message.args)
      (fd.results.foldl (readerStep p) ⟨.commandByte, fd.pending⟩) := by
  obtain ⟨pending, results⟩ := fd
  cases results with
  | nil => exact rfl
  | cons result results =>
    by_cases hr : result = .error
    · subst hr
      exact foldl_readerStep_of_done p rfl results
    · have hstep := @readerStep_of_ne p ⟨.commandByte, pending⟩ (by simp [ReaderState.count]) result hr
      rw [readControlMessage, read_cons hr, List.foldl_cons, hstep]
      simp only [ReaderState.count, Outcome.bind]
      rcases pending.take (result.limit 1) with _ | ⟨byte, _ | ⟨second, bytes⟩⟩
      case cons.nil =>
        simp only [ReaderState.receive]
        cases hcommand : controlCommandGetNArgs byte with
        | none => exact congrArg Reading.state (foldl_readerStep_of_done p rfl results)
        | some r =>
          refine (reaches_readArgs p r.1 [] r.2 ⟨pending.drop (result.limit 1), results⟩).bind ?_ ?_
          · exact fun fd' => rfl
          rintro args _ fd' ⟨read, rfl, hread⟩
          exact ⟨_, ⟨read, rfl, hread⟩, rfl⟩
      all_goals exact foldl_readerStep_of_done p rfl results

/-- **The reader is the run of its calls.** -/
theorem readControlMessage_eq_outcome (p : Platform) (fd : Fd) :
    ∃ results, readControlMessage p fd =
      (fd.results.foldl (readerStep p) ⟨.commandByte, fd.pending⟩).outcome results := by
  have h := reaches_readControlMessage p fd
  generalize fd.results.foldl (readerStep p) ⟨.commandByte, fd.pending⟩ = final at h
  cases hread : readControlMessage p fd with
  | ret value fd' =>
    rw [hread] at h
    refine ⟨fd'.results, ?_⟩
    cases value with
    | none =>
      obtain rfl : final = _ := h
      rfl
    | some message =>
      obtain ⟨_, ⟨read, rfl, hargs⟩, hfinal⟩ := h
      rw [hfinal, foldl_readerStep_of_done p rfl]
      simp only [Reading.outcome, hargs]
  | blocked =>
    rw [hread] at h
    exact ⟨[], h.symm⟩
  | overrun =>
    rw [hread] at h
    exact ⟨[], by rw [Reading.outcome, show final.state = .overrun from h]⟩
  | died =>
    rw [hread] at h
    exact ⟨[], by rw [Reading.outcome, show final.state = .died from h]⟩

/-! ## Counts and lengths -/

/-- The arguments that are complete. -/
def ReaderState.args : ReaderState → List (BitVec 32 × List UInt8)
  | .lengthWord _ args _ | .body _ args _ _ _ _ | .message _ args => args
  | .commandByte | .failed | .overrun | .died => []

/-- An argument on the wire, with the length word that was announced. -/
def argBytes (arg : BitVec 32 × List UInt8) : List UInt8 := storeWord false arg.1 ++ arg.2

/-- What the reader has kept of the stream. -/
def ReaderState.taken : ReaderState → Option (List UInt8)
  | .commandByte => some []
  | .lengthWord command args _ | .message command args =>
    some (command.toByte :: args.flatMap argBytes)
  | .body command args _ announced arg _ =>
    some (command.toByte :: (args ++ [(announced, arg)]).flatMap argBytes)
  | .failed | .overrun | .died => none

/-- The next call asks for no more than the buffer holds, each argument has the length announced for it or
lacks what is still to be read, and the arguments have grown by the bytes received. -/
structure KeepsLengths (p : Platform) (stream : List UInt8) (s : Reading) : Prop where
  count_le : s.state.count ≤ p.bufsiz
  complete : ∀ arg ∈ s.state.args, arg.2.length = arg.1.toNat
  growing : ∀ command args left announced arg len,
    s.state = .body command args left announced arg len → arg.length + len = announced.toNat
  received : ∀ bytes ∈ s.state.taken, bytes ++ s.pending = stream

/-- The length word that a call returns. -/
def Reading.lengthWord? (s : Reading) (result : ReadResult) : Option (BitVec 32) :=
  match s.state, s.stored result with
  | .lengthWord _ _ _, some [b0, b1, b2, b3] => some (ofLeBytes b0 b1 b2 b3)
  | _, _ => none

/-- The reader can hold what the call announces. -/
def AnnouncesReadable (p : Platform) (s : Reading) (result : ReadResult) : Prop :=
  ∀ w ∈ s.lengthWord? result, p.LengthReadable w.toNat

variable {p : Platform} {stream : List UInt8}

theorem keepsLengths_failed (pending : List UInt8) : KeepsLengths p stream ⟨.failed, pending⟩ where
  count_le := Nat.zero_le _
  complete arg harg := absurd harg (by simp [ReaderState.args])
  growing _ _ _ _ _ _ h := absurd h (by simp)
  received bytes h := absurd h (by simp [ReaderState.taken])

theorem keepsLengths_died (pending : List UInt8) : KeepsLengths p stream ⟨.died, pending⟩ where
  count_le := Nat.zero_le _
  complete arg harg := absurd harg (by simp [ReaderState.args])
  growing _ _ _ _ _ _ h := absurd h (by simp)
  received bytes h := absurd h (by simp [ReaderState.taken])

theorem keepsLengths_afterArg_iff {command : FepControlCommand}
    {args : List (BitVec 32 × List UInt8)} {left : Nat} {pending : List UInt8} :
    KeepsLengths p stream ⟨afterArg command args left, pending⟩ ↔
      (∀ arg ∈ args, arg.2.length = arg.1.toNat) ∧
        (command.toByte :: args.flatMap argBytes) ++ pending = stream := by
  have hbufsiz := p.bufsiz_ge
  constructor
  · intro h
    cases left with
    | zero => exact ⟨h.complete, h.received _ rfl⟩
    | succ left => exact ⟨h.complete, h.received _ rfl⟩
  · rintro ⟨hcomplete, hreceived⟩
    cases left with
    | zero =>
      refine ⟨Nat.zero_le _, hcomplete, fun _ _ _ _ _ _ h => absurd h (by simp [afterArg]), ?_⟩
      intro bytes hbytes
      obtain rfl := Option.some.inj hbytes
      exact hreceived
    | succ left =>
      have hcount : 4 ≤ p.bufsiz := by omega
      refine ⟨hcount, hcomplete, fun _ _ _ _ _ _ h => absurd h (by simp [afterArg]), ?_⟩
      intro bytes hbytes
      obtain rfl := Option.some.inj hbytes
      exact hreceived

theorem keepsLengths_atBody_iff {command : FepControlCommand}
    {args : List (BitVec 32 × List UInt8)} {left : Nat} {announced : BitVec 32} {arg : List UInt8}
    {len : Nat} {pending : List UInt8} :
    KeepsLengths p stream ⟨atBody command args left announced arg len, pending⟩ ↔
      len ≤ p.bufsiz ∧ (∀ arg ∈ args, arg.2.length = arg.1.toNat) ∧
        arg.length + len = announced.toNat ∧
        (command.toByte :: (args ++ [(announced, arg)]).flatMap argBytes) ++ pending = stream := by
  cases len with
  | zero =>
    rw [atBody, keepsLengths_afterArg_iff, List.forall_mem_append, List.forall_mem_singleton]
    simp [and_assoc]
  | succ len =>
    constructor
    · intro h
      exact ⟨h.count_le, h.complete, h.growing _ _ _ _ _ _ rfl, h.received _ rfl⟩
    · rintro ⟨hcount, hcomplete, hgrowing, hreceived⟩
      refine ⟨hcount, hcomplete, ?_, ?_⟩
      · intro _ _ _ _ _ _ h
        obtain ⟨rfl, rfl, rfl, rfl, rfl, rfl⟩ := ReaderState.body.inj h
        exact hgrowing
      · intro bytes hbytes
        obtain rfl := Option.some.inj hbytes
        exact hreceived

/-- A length word is held exactly if the length that the reader makes of it is the one announced and fits the
buffer. -/
theorem lengthReadable_ofLeBytes_iff (p : Platform) (b0 b1 b2 b3 : UInt8) :
    p.LengthReadable (ofLeBytes b0 b1 b2 b3).toNat ↔
      (p.assembleLength b0 b1 b2 b3).toNat ≤ p.bufsiz ∧
        (p.assembleLength b0 b1 b2 b3).toNat = (ofLeBytes b0 b1 b2 b3).toNat := by
  have hbufsiz := p.bufsiz_lt
  have hread : p.lengthReadFor (ofLeBytes b0 b1 b2 b3).toNat =
      (p.assembleLength b0 b1 b2 b3).toNat := by
    obtain ⟨h0, h1, h2, h3⟩ := leByte_ofLeBytes b0 b1 b2 b3
    rw [Platform.lengthReadFor, BitVec.ofNat_toNat, BitVec.setWidth_eq, h0, h1, h2, h3]
  constructor
  · intro h
    have heq := (lengthReadFor_eq_iff p (Nat.lt_of_le_of_lt h.fits hbufsiz)).mpr
      ⟨h.unsigned, h.palindrome⟩
    rw [hread] at heq
    exact ⟨heq ▸ h.fits, heq⟩
  · rintro ⟨hfits, heq⟩
    rw [heq] at hfits
    obtain ⟨hunsigned, hpalindrome⟩ := (lengthReadFor_eq_iff p
      (Nat.lt_of_le_of_lt hfits hbufsiz)).mp (hread.trans heq)
    exact ⟨hfits, hunsigned, hpalindrome⟩

/-! ## A call -/

theorem keepsLengths_command {s : Reading} (hs : s.state = .commandByte)
    (h : KeepsLengths p stream s) {result : ReadResult} (hr : result ≠ .error) :
    KeepsLengths p stream (readerStep p s result) := by
  obtain ⟨_, pending⟩ := s
  obtain rfl := hs
  have hstream : pending = stream := h.received [] rfl
  rw [readerStep_of_ne p (by simp [ReaderState.count]) hr]
  have hsplit := List.take_append_drop (result.limit 1) pending
  simp only [ReaderState.count]
  rcases htake : pending.take (result.limit 1) with _ | ⟨byte, _ | ⟨second, bytes⟩⟩
  · exact keepsLengths_failed _
  · rw [htake] at hsplit
    simp only [ReaderState.receive]
    cases hcommand : controlCommandGetNArgs byte with
    | none => exact keepsLengths_died _
    | some r =>
      obtain ⟨command, nArgs⟩ := r
      obtain ⟨rfl, -⟩ := controlCommandGetNArgs_eq_some hcommand
      apply keepsLengths_afterArg_iff.mpr
      refine ⟨fun arg harg => absurd harg (by simp), ?_⟩
      exact hsplit.trans hstream
  · exact keepsLengths_failed _

theorem keepsLengths_body {s : Reading} {command : FepControlCommand}
    {args : List (BitVec 32 × List UInt8)} {left : Nat} {announced : BitVec 32} {arg : List UInt8}
    {len : Nat} (hs : s.state = .body command args left announced arg len) (hlen : len ≠ 0)
    (h : KeepsLengths p stream s) {result : ReadResult} (hr : result ≠ .error) :
    KeepsLengths p stream (readerStep p s result) := by
  obtain ⟨_, pending⟩ := s
  obtain rfl := hs
  have hcount : len ≤ p.bufsiz := h.count_le
  have hle := result.limit_le len
  have hlength : (pending.take (result.limit len)).length ≤ len := by
    rw [List.length_take]
    omega
  have hne : (Reading.mk (.body command args left announced arg len) pending).state.count ≠ 0 := hlen
  have hreceive : ReaderState.receive p (.body command args left announced arg len)
      (some (pending.take (result.limit len))) =
        atBody command args left announced (arg ++ pending.take (result.limit len))
          (len - (pending.take (result.limit len)).length) := if_neg (by omega)
  rw [readerStep_of_ne p hne hr]
  show KeepsLengths p stream ⟨ReaderState.receive p (.body command args left announced arg len)
    (some (pending.take (result.limit len))), pending.drop (result.limit len)⟩
  rw [hreceive, keepsLengths_atBody_iff]
  refine ⟨by omega, h.complete, ?_, ?_⟩
  · have hgrowing := h.growing _ _ _ _ _ _ rfl
    rw [List.length_append]
    omega
  · rw [← h.received _ rfl]
    simp [argBytes]

/-- The call for a length word is where it is decided. -/
theorem keepsLengths_lengthWord_iff {s : Reading} {command : FepControlCommand}
    {args : List (BitVec 32 × List UInt8)} {left : Nat} (hs : s.state = .lengthWord command args left)
    (h : KeepsLengths p stream s) {result : ReadResult} (hr : result ≠ .error) :
    KeepsLengths p stream (readerStep p s result) ↔ AnnouncesReadable p s result := by
  obtain ⟨_, pending⟩ := s
  obtain rfl := hs
  have hstored : (Reading.mk (.lengthWord command args left) pending).stored result =
      some (pending.take (result.limit 4)) := by
    cases result with
    | error => exact absurd rfl hr
    | short k => rfl
    | full => rfl
  rw [readerStep_of_ne p (by simp [ReaderState.count]) hr]
  unfold AnnouncesReadable Reading.lengthWord?
  rw [hstored]
  have hsplit := List.take_append_drop (result.limit 4) pending
  simp only [ReaderState.count]
  rcases htake : pending.take (result.limit 4) with
    _ | ⟨b0, _ | ⟨b1, _ | ⟨b2, _ | ⟨b3, _ | ⟨b4, bytes⟩⟩⟩⟩⟩
  case cons.cons.cons.cons.nil =>
    rw [htake] at hsplit
    simp only [ReaderState.receive, Option.mem_some_iff, forall_eq']
    rw [lengthReadable_ofLeBytes_iff, keepsLengths_atBody_iff, List.length_nil, Nat.zero_add]
    -- the bytes of the word are those announced
    have hreceived : (command.toByte :: (args ++ [(ofLeBytes b0 b1 b2 b3, [])]).flatMap argBytes) ++
        pending.drop (result.limit 4) = stream := by
      obtain ⟨h0, h1, h2, h3⟩ := leByte_ofLeBytes b0 b1 b2 b3
      rw [← h.received _ rfl]
      nth_rewrite 2 [← hsplit]
      simp [argBytes, storeWord, h0, h1, h2, h3]
    constructor
    · rintro ⟨hfits, -, heq, -⟩
      exact ⟨hfits, heq⟩
    · rintro ⟨hfits, heq⟩
      exact ⟨hfits, h.complete, heq, hreceived⟩
  all_goals exact iff_of_true (keepsLengths_failed _) (fun w hw => absurd hw (by simp))

/-- In front of anything but a length word, a call announces nothing. -/
theorem announcesReadable_of_ne {s : Reading} {result : ReadResult}
    (hstate : ∀ command args left, s.state ≠ .lengthWord command args left) :
    AnnouncesReadable p s result := by
  intro w hw
  unfold Reading.lengthWord? at hw
  split at hw
  · next heq _ => exact absurd heq (hstate _ _ _)
  · exact absurd hw (by simp)

/-- A call that fails announces nothing either, and the reader returns -1. -/
theorem announcesReadable_error (s : Reading) : AnnouncesReadable p s .error := by
  intro w hw
  unfold Reading.lengthWord? at hw
  split at hw
  · next heq => exact absurd heq (by simp [Reading.stored])
  · exact absurd hw (by simp)

theorem keepsLengths_error {s : Reading} (hcount : s.state.count ≠ 0) :
    KeepsLengths p stream (readerStep p s .error) := by
  have hfailed : (readerStep p s .error).state = .failed := by
    rw [readerStep, if_neg hcount]
    obtain ⟨state, pending⟩ := s
    cases state with
    | commandByte | lengthWord | body => rfl
    | message | failed | overrun | died => exact absurd rfl hcount
  have hstep : readerStep p s .error = ⟨.failed, (readerStep p s .error).pending⟩ := by
    rw [← hfailed]
  rw [hstep]
  exact keepsLengths_failed _

/-- **A call keeps the counts and the lengths exactly if it does not announce a length that the reader cannot
hold.** One case for each thing that may be read. -/
theorem keepsLengths_step_iff {s : Reading} (h : KeepsLengths p stream s) (result : ReadResult) :
    KeepsLengths p stream (readerStep p s result) ↔ AnnouncesReadable p s result := by
  by_cases hcount : s.state.count = 0
  · -- the reader has returned
    rw [readerStep, if_pos hcount]
    refine iff_of_true h (announcesReadable_of_ne ?_)
    intro command args left heq
    rw [heq] at hcount
    exact absurd hcount (by simp [ReaderState.count])
  · by_cases hr : result = .error
    · subst hr
      exact iff_of_true (keepsLengths_error hcount) (announcesReadable_error s)
    · cases hs : s.state with
      | commandByte =>
        exact iff_of_true (keepsLengths_command hs h hr) (announcesReadable_of_ne (by simp [hs]))
      | lengthWord command args left => exact keepsLengths_lengthWord_iff hs h hr
      | body command args left announced arg len =>
        rw [hs] at hcount
        exact iff_of_true (keepsLengths_body hs hcount h hr)
          (announcesReadable_of_ne (by simp [hs]))
      | message | failed | overrun | died =>
        rw [hs] at hcount
        exact absurd rfl hcount

/-! ## The calls of a reader -/

/-- The states that the reader of a stream goes through. -/
def readings (p : Platform) (fd : Fd) : List Reading :=
  states (readerStep p) ⟨.commandByte, fd.pending⟩ fd.results

/-- **The reader asks for no more than its buffer holds and reads each argument to its length** exactly if it
is announced no length that it cannot hold. -/
theorem keepsLengths_iff (p : Platform) (fd : Fd) :
    (∀ s ∈ readings p fd, KeepsLengths p fd.pending s) ↔
      ∀ call ∈ transitions (readerStep p) ⟨.commandByte, fd.pending⟩ fd.results,
        AnnouncesReadable p call.1 call.2 := by
  have hbufsiz := p.bufsiz_ge
  have hstart : KeepsLengths p fd.pending ⟨.commandByte, fd.pending⟩ := by
    refine ⟨show 1 ≤ p.bufsiz by omega, fun arg harg => absurd harg (by simp [ReaderState.args]),
      fun _ _ _ _ _ _ h => absurd h (by simp), ?_⟩
    intro bytes hbytes
    obtain rfl := Option.some.inj hbytes
    rfl
  have hstep (s : Reading) (result : ReadResult) (h : KeepsLengths p fd.pending s) (_ : True) :
      KeepsLengths p fd.pending (readerStep p s result) ↔ AnnouncesReadable p s result :=
    keepsLengths_step_iff h result
  exact forall_states_iff hstep hstart (fun _ _ => trivial)

/-- `SEND_DATA` with a length of 8193, where `BUFSIZ` is 8192: the reader asks for 8193 bytes. -/
theorem not_keepsLengths_8193 :
    ¬ ∀ s ∈ readings .aarch64 ⟨[4, 0x01, 0x20, 0, 0], [.full, .full]⟩,
      KeepsLengths .aarch64 [4, 0x01, 0x20, 0, 0] s := by
  intro h
  have hmem : ⟨.body .sendData [] 0 0x2001 [] 8193, []⟩ ∈
      readings .aarch64 ⟨[4, 0x01, 0x20, 0, 0], [.full, .full]⟩ := by decide
  have hcount := (h _ hmem).count_le
  exact absurd hcount (by decide)

end LibFep
