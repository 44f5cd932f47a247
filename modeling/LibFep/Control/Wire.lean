import LibFep.Control.Message

/-!
# LibFep — reading and writing control messages

`_fep_read_control_message` and `_fep_write_control_message` of `libfep/control.c`, over a model
of the two system calls.

* **`Fd`** — the reading end of a stream: the bytes the peer has written and the results of the
  next `read` calls. A call that has no result yet blocks; one that finds no bytes left returns 0.
* **`Outcome`** — how the reader ends: it returns, it blocks, a `read` stores past the end of its
  stack buffer, or `xcalloc` gives up.
* **`readControlMessage`** — the reader. Its body loop runs once for each `read`, so it recurses
  on the results of the calls.
* **`writeControlMessage`** — the writer, with the bytes the socket accepts. A result list that is
  used up stands for calls that accept all they are given.

Logging is left out: it changes neither the result nor the stream.
-/

namespace LibFep

open Lib

/-! ## The two system calls -/

inductive ReadResult where
  /-- The call returns -1. -/
  | error
  /-- The call returns at most `k + 1` bytes. -/
  | short (k : Nat)
  /-- The call returns as many bytes as asked for, or all there are. -/
  | full
  deriving DecidableEq, Repr

structure Fd where
  pending : List UInt8
  results : List ReadResult
  deriving DecidableEq, Repr

/-- The number of bytes a `read` of `count` bytes may return. -/
def ReadResult.limit : ReadResult → Nat → Nat
  | .error, _ => 0
  | .short k, count => min (k + 1) count
  | .full, count => count

theorem ReadResult.limit_le (result : ReadResult) (count : Nat) : result.limit count ≤ count := by
  cases result with
  | error => exact Nat.zero_le _
  | short k => exact Nat.min_le_right _ _
  | full => exact Nat.le_refl _

inductive Outcome (α : Type) where
  | ret (value : α) (fd : Fd)
  /-- A `read` has no result yet. -/
  | blocked
  /-- A `read` stored more than `BUFSIZ` bytes in the stack buffer. -/
  | overrun
  /-- `xcalloc` could not allocate the arguments. -/
  | died
  deriving DecidableEq, Repr

def Outcome.bind {α β : Type} (o : Outcome α) (f : α → Fd → Outcome β) : Outcome β :=
  match o with
  | .ret value fd => f value fd
  | .blocked => .blocked
  | .overrun => .overrun
  | .died => .died

/-- `read (fd, buf, count)`: the bytes stored in `buf`, `none` for the return value -1. -/
def Fd.read (fd : Fd) (count : Nat) : Outcome (Option (List UInt8)) :=
  match fd.results with
  -- no call has returned yet
  | [] => .blocked
  | .error :: results => .ret none { fd with results := results }
  | result :: results =>
    .ret (some (fd.pending.take (result.limit count)))
      { pending := fd.pending.drop (result.limit count), results := results }

/-- The result of a `write` call. The kernel never accepts more than `0x7ffff000` bytes in one
call, so the `int` that the result is stored in does not overflow. -/
inductive WriteResult where
  | error
  | short (k : Nat)
  | full
  deriving DecidableEq, Repr

/-! ## The reader -/

/-- The four bytes in `buf` put together, each `char` promoted to `int` before it is shifted. -/
def Platform.assembleChars (p : Platform) (b0 b1 b2 b3 : UInt8) : BitVec 32 :=
  (p.charToInt b3 <<< 24) ||| (p.charToInt b2 <<< 16) ||| (p.charToInt b1 <<< 8) ||| p.charToInt b0

/-- The length an argument is read with. -/
def Platform.assembleLength (p : Platform) (b0 b1 b2 b3 : UInt8) : BitVec 32 :=
  let len := p.assembleChars b0 b1 b2 b3
  if p.wordsBigEndian then bswap32 len else len

/-- The loop `while (len > 0)` that collects the body of an argument in `arg`. -/
def readArgBody (p : Platform) : List ReadResult → List UInt8 → Nat → List UInt8 →
    Outcome (Option (List UInt8))
  | results, pending, 0, arg => .ret (some arg) ⟨pending, results⟩
  | [], _, _ + 1, _ => .blocked
  | .error :: results, pending, _ + 1, _ => .ret none ⟨pending, results⟩
  | result :: results, pending, len + 1, arg =>
    let bytes := pending.take (result.limit (len + 1))
    -- `read (fd, buf, len)`, with `char buf[BUFSIZ]`
    if p.bufsiz < bytes.length then .overrun
    else
      readArgBody p results (pending.drop (result.limit (len + 1))) (len + 1 - bytes.length)
        (arg ++ bytes)

/-- One round of the loop over `args`: the length word, then the body. -/
def readArg (p : Platform) (fd : Fd) : Outcome (Option (List UInt8)) :=
  (fd.read 4).bind fun bytes fd =>
    match bytes with
    | some [b0, b1, b2, b3] =>
      readArgBody p fd.results fd.pending (p.assembleLength b0 b1 b2 b3).toNat []
    -- -1, or fewer than four bytes
    | _ => .ret none fd

def readArgs (p : Platform) : Nat → Fd → Outcome (Option (List (List UInt8)))
  | 0, fd => .ret (some []) fd
  | n + 1, fd =>
    (readArg p fd).bind fun arg fd =>
      match arg with
      | none => .ret none fd
      | some arg =>
        (readArgs p n fd).bind fun args fd => .ret (args.map (arg :: ·)) fd

/-- `_fep_read_control_message`: the message stored for the return value 0, `none` for -1. The
count -1 of an unknown command passes the test `retval < -1` and reaches `xcalloc` as the largest
`size_t`. -/
def readControlMessage (p : Platform) (fd : Fd) : Outcome (Option FepControlMessage) :=
  (fd.read 1).bind fun bytes fd =>
    match bytes with
    | some [byte] =>
      match controlCommandGetNArgs byte with
      | none => .died
      | some (command, nArgs) =>
        (readArgs p nArgs fd).bind fun args fd => .ret (args.map (⟨command, ·⟩)) fd
    -- -1, or the end of the stream
    | _ => .ret none fd

/-! ## The writer -/

/-- What a sequence of `write` calls has done: the return value of the function that makes them,
the bytes accepted, and the results that are left for later calls. -/
structure Written where
  retval : Int
  bytes : List UInt8
  results : List WriteResult
  deriving DecidableEq, Repr

/-- `write (fd, bytes, count)`: how many of the bytes are accepted, `none` for -1. -/
def write (results : List WriteResult) (bytes : List UInt8) :
    Option (List UInt8) × List WriteResult :=
  match results with
  | [] => (some bytes, [])
  | .error :: results => (none, results)
  | .short k :: results => (some (bytes.take (k + 1)), results)
  | .full :: results => (some bytes, results)

/-- The loop that writes the bytes of an argument. -/
def writeArgBody : List WriteResult → List UInt8 → Written
  | results, [] => ⟨0, [], results⟩
  | [], bytes => ⟨0, bytes, []⟩
  | .error :: results, _ :: _ => ⟨-1, [], results⟩
  | .full :: results, bytes => ⟨0, bytes, results⟩
  | .short k :: results, bytes =>
    let rest := writeArgBody results (bytes.drop (k + 1))
    { rest with bytes := bytes.take (k + 1) ++ rest.bytes }

/-- One round of the loop over `args`. A short write of the length word goes unnoticed. -/
def writeArg (p : Platform) (results : List WriteResult) (arg : List UInt8) : Written :=
  match write results (p.wireWord (BitVec.ofNat 32 arg.length)) with
  | (none, results) => ⟨-1, [], results⟩
  | (some lengthWord, results) =>
    let body := writeArgBody results arg
    { body with bytes := lengthWord ++ body.bytes }

def writeArgs (p : Platform) : List WriteResult → List (List UInt8) → Written
  | results, [] => ⟨0, [], results⟩
  | results, arg :: args =>
    let first := writeArg p results arg
    if first.retval < 0 then first
    else
      let rest := writeArgs p first.results args
      { rest with bytes := first.bytes ++ rest.bytes }

def writeControlMessage (p : Platform) (results : List WriteResult)
    (message : FepControlMessage) : Written :=
  match write results [message.command.toByte] with
  | (some (byte :: _), results) =>
    let args := writeArgs p results message.args
    { args with bytes := byte :: args.bytes }
  | (_, results) => ⟨-1, [], results⟩

/-! ## Complete writes -/

/-- The encoding of an argument: its length, least significant byte first, and its bytes. -/
def encodeArg (arg : List UInt8) : List UInt8 :=
  let len := BitVec.ofNat 32 arg.length
  [leByte len 0, leByte len 1, leByte len 2, leByte len 3] ++ arg

def FepControlMessage.encode (message : FepControlMessage) : List UInt8 :=
  message.command.toByte :: message.args.flatMap encodeArg

@[simp] theorem writeArgBody_complete (arg : List UInt8) : writeArgBody [] arg = ⟨0, arg, []⟩ := by
  cases arg <;> rfl

theorem writeArgs_complete (p : Platform) (args : List (List UInt8)) :
    writeArgs p [] args = ⟨0, args.flatMap encodeArg, []⟩ := by
  induction args with
  | nil => rfl
  | cons arg args ih =>
    have hfirst : writeArg p [] arg = ⟨0, encodeArg arg, []⟩ := by
      simp [writeArg, write, encodeArg, Platform.wireWord_eq]
    rw [writeArgs, hfirst]
    simp [ih]

/-- **When every write is complete, the writer returns 0 and emits the encoding of the message**,
on every platform. -/
theorem writeControlMessage_complete (p : Platform) (message : FepControlMessage) :
    writeControlMessage p [] message = ⟨0, message.encode, []⟩ := by
  simp [writeControlMessage, write, writeArgs_complete, FepControlMessage.encode]

/-- The bytes that writing the messages one after the other puts on the stream, each write
complete. -/
def wire (p : Platform) (messages : List FepControlMessage) : List UInt8 :=
  messages.flatMap fun message => (writeControlMessage p [] message).bytes

@[simp] theorem wire_nil (p : Platform) : wire p [] = [] := rfl

@[simp] theorem wire_cons (p : Platform) (message : FepControlMessage)
    (messages : List FepControlMessage) :
    wire p (message :: messages) = message.encode ++ wire p messages := by
  simp [wire, writeControlMessage_complete]

@[simp] theorem wire_append (p : Platform) (messages messages' : List FepControlMessage) :
    wire p (messages ++ messages') = wire p messages ++ wire p messages' := by
  simp [wire]

end LibFep
