import LibFep.Platform

/-!
# LibFep — control messages

The control messages that clients and the server exchange (`libfep/private.h`) and the functions
of `libfep/control.c` that build and take apart their arguments.

An argument is modelled by its bytes: its `cap` equals its `len` from the moment it is made, and
nothing appends to it later. A read of or a store to an argument goes through an index check that
admits `index == n_args`, so the functions that make it can fault (`Fault.badAccess`).
-/

namespace LibFep

open Lib

inductive FepControlCommand where
  -- client to server
  | setCursorText
  | setStatusText
  | sendText
  | sendData
  | forwardKeyEvent
  -- server to client
  | keyEvent
  | resizeEvent
  -- response from client
  | response
  deriving DecidableEq, Repr

/-- The value of the enumerator, as the byte sent for it. -/
def FepControlCommand.toByte : FepControlCommand → UInt8
  | .setCursorText => 1
  | .setStatusText => 2
  | .sendText => 3
  | .sendData => 4
  | .forwardKeyEvent => 5
  | .keyEvent => 6
  | .resizeEvent => 7
  | .response => 8

/-- The table `commands`: each command with the number of its arguments. -/
def commands : List (FepControlCommand × Nat) :=
  [(.setCursorText, 2), (.setStatusText, 2), (.sendText, 1), (.sendData, 1),
    (.forwardKeyEvent, 2), (.keyEvent, 3), (.resizeEvent, 2), (.response, 2)]

/-- `_fep_control_command_get_n_args` on the byte read for a command: the command of the table
it is and the number of its arguments, or `none` for the return value -1. -/
def controlCommandGetNArgs (byte : UInt8) : Option (FepControlCommand × Nat) :=
  commands.find? (fun entry => entry.1.toByte = byte)

def FepControlCommand.nArgs (command : FepControlCommand) : Nat :=
  (commands.find? (fun entry => entry.1 = command)).elim 0 (·.2)

theorem controlCommandGetNArgs_toByte (command : FepControlCommand) :
    controlCommandGetNArgs command.toByte = some (command, command.nArgs) := by
  cases command <;> rfl

structure FepControlMessage where
  command : FepControlCommand
  args : List (List UInt8)
  deriving DecidableEq, Repr

/-- A message that the wire format can carry: as many arguments as the table says, each of a
length that fits the 32-bit length word. -/
structure WireMessage extends FepControlMessage where
  n_args_eq : args.length = command.nArgs
  len_lt : ∀ arg ∈ args, arg.length < 2 ^ 32

structure FepAttribute where
  type : BitVec 32
  value : BitVec 32
  startIndex : BitVec 32
  endIndex : BitVec 32
  deriving DecidableEq, Repr

/-- `_fep_control_message_alloc_args` on a message with its command set. -/
def controlMessageAllocArgs (command : FepControlCommand) (nArgs : Nat) : FepControlMessage :=
  ⟨command, List.replicate nArgs []⟩

/-! ## Storing an argument -/

/-- What the four functions below have in common: they return -1 past `n_args` and store the
argument otherwise, which at `n_args` itself is a store past the end of `args`. -/
def controlMessageWriteArg (message : FepControlMessage) (index : Nat) (bytes : List UInt8) :
    Except Fault (Int × FepControlMessage) :=
  if message.args.length < index then .ok (-1, message)
  else if index = message.args.length then .error .badAccess
  else .ok (0, { message with args := message.args.set index bytes })

def controlMessageWriteUint32Arg (p : Platform) (message : FepControlMessage) (index : Nat)
    (val : BitVec 32) : Except Fault (Int × FepControlMessage) :=
  controlMessageWriteArg message index (p.wireWord val)

def controlMessageWriteUint8Arg (message : FepControlMessage) (index : Nat) (val : UInt8) :
    Except Fault (Int × FepControlMessage) :=
  controlMessageWriteArg message index [val]

def controlMessageWriteStringArg (message : FepControlMessage) (index : Nat)
    (str : List UInt8) : Except Fault (Int × FepControlMessage) :=
  controlMessageWriteArg message index str

def Platform.wireAttribute (p : Platform) (attr : FepAttribute) : List UInt8 :=
  p.wireWord attr.type ++ p.wireWord attr.value ++ p.wireWord attr.startIndex
    ++ p.wireWord attr.endIndex

def controlMessageWriteAttributeArg (p : Platform) (message : FepControlMessage) (index : Nat)
    (attr : FepAttribute) : Except Fault (Int × FepControlMessage) :=
  controlMessageWriteArg message index
    (p.wireWord attr.type ++ p.wireWord attr.value ++ p.wireWord attr.startIndex
      ++ p.wireWord attr.endIndex)

/-! ## Reading an argument -/

/-- The argument that the reading functions look at, `none` for their return value -1. -/
def controlMessageArg (message : FepControlMessage) (index len : Nat) :
    Except Fault (Option (List UInt8)) :=
  if message.args.length < index then .ok none
  else match message.args[index]? with
    | none => .error .badAccess
    | some arg => if arg.length ≠ len then .ok none else .ok (some arg)

def controlMessageReadUint32Arg (p : Platform) (message : FepControlMessage) (index : Nat) :
    Except Fault (Option (BitVec 32)) := do
  let some arg ← controlMessageArg message index 4 | return none
  let intval := wordAt p.wordsBigEndian arg 0
  return some (if p.wordsBigEndian then bswap32 intval else intval)

/-- A field of an attribute argument. The variable it is read into is a `uint8_t`, before and
after the byte swap. -/
def readAttributeField (p : Platform) (arg : List UInt8) (field : Nat) : BitVec 32 :=
  let intval : BitVec 8 := (wordAt p.wordsBigEndian arg field).setWidth 8
  let intval : BitVec 8 :=
    if p.wordsBigEndian then (bswap32 (intval.setWidth 32)).setWidth 8 else intval
  intval.setWidth 32

def controlMessageReadAttributeArg (p : Platform) (message : FepControlMessage) (index : Nat) :
    Except Fault (Option FepAttribute) := do
  let some arg ← controlMessageArg message index 16 | return none
  return some
    { type := readAttributeField p arg 0
      value := readAttributeField p arg 1
      startIndex := readAttributeField p arg 2
      endIndex := readAttributeField p arg 3 }

/-! ## A word survives the round trip -/

/-- The number in an argument of four bytes. -/
def Platform.uint32Of (p : Platform) (arg : List UInt8) : BitVec 32 :=
  if p.wordsBigEndian then bswap32 (wordAt p.wordsBigEndian arg 0)
  else wordAt p.wordsBigEndian arg 0

theorem uint32Of_wireWord (p : Platform) (w : BitVec 32) : p.uint32Of (p.wireWord w) = w := by
  have hload (v : BitVec 32) :
      wordAt p.wordsBigEndian (storeWord p.wordsBigEndian v) 0 = v := by
    have := wordAt_storeWords p.wordsBigEndian [v] 0 v rfl
    simpa [storeWords] using this
  unfold Platform.uint32Of Platform.wireWord
  rw [hload]
  cases p.wordsBigEndian with
  | false => rfl
  -- swapped twice, the word is itself again
  | true => exact bswap32_bswap32 w

theorem controlMessageReadUint32Arg_of_length (p : Platform) {message : FepControlMessage}
    {index : Nat} {arg : List UInt8} (harg : message.args[index]? = some arg)
    (hlen : arg.length = 4) :
    controlMessageReadUint32Arg p message index = .ok (some (p.uint32Of arg)) := by
  have hlt : index < message.args.length := by
    obtain ⟨hlt, -⟩ := List.getElem?_eq_some_iff.mp harg
    exact hlt
  have hread : controlMessageArg message index 4 = .ok (some arg) := by
    rw [controlMessageArg, if_neg (by omega), harg]
    simp [hlen]
  unfold controlMessageReadUint32Arg
  rw [hread]
  rfl

theorem controlMessageReadUint32Arg_wireWord (p : Platform) {message : FepControlMessage}
    {index : Nat} {w : BitVec 32} (h : message.args[index]? = some (p.wireWord w)) :
    controlMessageReadUint32Arg p message index = .ok (some w) := by
  rw [controlMessageReadUint32Arg_of_length p h (p.length_wireWord w), uint32Of_wireWord]

end LibFep
