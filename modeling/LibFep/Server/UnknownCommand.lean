import LibFep.Control.Fragments
import LibFep.Server.ClientRuns

/-!
# LibFep — bytes that are no command

`_fep_read_control_message_from_fd` of `fep/control.c` on a client that sends a byte which is not in the
table of commands. `_fep_control_command_get_n_args` returns -1 for it, and the reader tests for
`retval < -1`: it goes on to allocate `(size_t) -1` arguments, which ends the server.

* **`readControlMessageFromFd_of_unknown`** — the server ends.
* **`unknownCommand_terminates`** — so that the byte is rejected on no stream and in no table of clients.
-/

namespace LibFep

open Lib

/-- `_fep_read_control_message_from_fd`, for the client with the descriptor `fd`: the message stored for the
return value 0, `none` for -1, and the table of clients. -/
def readControlMessageFromFd (p : Platform) (t : ClientTable) (fd : BitVec 32) (stream : Fd) :
    Outcome (Option FepControlMessage × Except Fault ClientTable) :=
  (readControlMessage p stream).bind fun message stream =>
    match message with
    | none => .ret (none, removeClient p t fd) stream
    | some message => .ret (some message, .ok t) stream

/-- The byte is taken off the stream, no message is stored, and the client, which is at index `i`, is dropped
from the table. -/
structure RejectsUnknown (p : Platform) (t : ClientTable) (i : Nat) (fd : BitVec 32) (byte : UInt8)
    (rest : List UInt8) (results : List ReadResult) : Prop where
  returns : ∃ results', readControlMessage p ⟨byte :: rest, results⟩ = .ret none ⟨rest, results'⟩
  drops : ∃ t' stream, readControlMessageFromFd p t fd ⟨byte :: rest, results⟩ =
    .ret (none, .ok t') stream ∧ RemovedAt t i t'

/-- A read that returns the byte ends in the allocation. -/
theorem readControlMessage_of_unknown (p : Platform) {byte : UInt8}
    (h : controlCommandGetNArgs byte = none) (rest : List UInt8) {r : ReadResult}
    (hr : r ≠ .error) (results : List ReadResult) :
    readControlMessage p ⟨byte :: rest, r :: results⟩ = .died := by
  rw [readControlMessage, read_cons hr, ReadResult.limit_one hr]
  simp only [Outcome.bind, List.take_succ_cons, List.take_zero, h]

theorem readControlMessageFromFd_of_unknown (p : Platform) (t : ClientTable) (fd : BitVec 32)
    {byte : UInt8} (h : controlCommandGetNArgs byte = none) (rest : List UInt8) {r : ReadResult}
    (hr : r ≠ .error) (results : List ReadResult) :
    readControlMessageFromFd p t fd ⟨byte :: rest, r :: results⟩ = .died := by
  rw [readControlMessageFromFd, readControlMessage_of_unknown p h rest hr results]
  rfl

/-- The calls that return something else than the byte do not take it off the stream. -/
theorem readControlMessage_not_returns (p : Platform) {byte : UInt8}
    (h : controlCommandGetNArgs byte = none) (rest : List UInt8) (results results' : List ReadResult) :
    readControlMessage p ⟨byte :: rest, results⟩ ≠ .ret none ⟨rest, results'⟩ := by
  intro hret
  cases results with
  | nil => exact absurd hret (by simp [readControlMessage, Fd.read, Outcome.bind])
  | cons r results =>
    by_cases hr : r = .error
    · -- the call returns -1
      subst hr
      have hpending := congrArg Fd.pending (Outcome.ret.inj hret).2
      exact absurd hpending (List.cons_ne_self byte rest)
    · rw [readControlMessage_of_unknown p h rest hr results] at hret
      exact absurd hret (by simp)

/-- **A byte that is no command terminates the server**: where a call returns the byte the server ends in the
allocation, and whatever the calls return the byte is never rejected. -/
theorem unknownCommand_terminates (p : Platform) (t : ClientTable) (i : Nat) (fd : BitVec 32)
    {byte : UInt8} (h : controlCommandGetNArgs byte = none) (rest : List UInt8)
    (results : List ReadResult) :
    (∀ r ∈ results.head?, r ≠ .error →
      readControlMessageFromFd p t fd ⟨byte :: rest, results⟩ = .died) ∧
      ¬ RejectsUnknown p t i fd byte rest results := by
  constructor
  · intro r hhead hr
    obtain ⟨results', rfl⟩ := List.head?_eq_some_iff.mp hhead
    exact readControlMessageFromFd_of_unknown p t fd h rest hr results'
  · rintro ⟨⟨results', hret⟩, -⟩
    exact readControlMessage_not_returns p h rest results results' hret

/-- The byte 0xFF, which is -1 as a signed `char`. -/
theorem unknownCommand_terminates_ff :
    (∀ r ∈ [ReadResult.full].head?, r ≠ .error →
      readControlMessageFromFd .x86_64 threeClients 5 ⟨0xFF :: [], [.full]⟩ = .died) ∧
      ¬ RejectsUnknown .x86_64 threeClients 1 5 0xFF [] [.full] :=
  unknownCommand_terminates .x86_64 threeClients 1 5 (by decide) [] [.full]

/-- The byte 9, from the second of three clients. -/
theorem not_rejectsUnknown_nine :
    ¬ ∀ (p : Platform) (t : ClientTable) (i : Nat) (fd : BitVec 32) (byte : UInt8)
      (rest : List UInt8) (results : List ReadResult), controlCommandGetNArgs byte = none →
      t.clients[i]? = some fd → RejectsUnknown p t i fd byte rest results := by
  intro h
  obtain ⟨results', hret⟩ :=
    (h .x86_64 threeClients 1 5 9 [] [.full] (by decide) (by decide)).returns
  have hdied : readControlMessage .x86_64 ⟨[9], [.full]⟩ = .died := by decide
  exact absurd (hdied.symm.trans hret) (by simp)

end LibFep
