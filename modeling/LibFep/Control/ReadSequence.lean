import LibFep.Control.RoundTrip

/-!
# LibFep — the messages read from one socket

What successive calls of `_fep_read_control_message` on a socket return. It does not matter to the
socket which function makes the call, so the functions that read from it take their messages from
this sequence.

* **`readSequence`** — the sequence, up to a call that does not return.
* **`readSequence_wire`** — on a stream of messages that the platform can read back, it is those
  messages.
-/

namespace LibFep

open Lib

/-! ## A read uses up results -/

theorem readArgBody_results (p : Platform) (results : List ReadResult) (pending : List UInt8)
    (len : Nat) (arg : List UInt8) {r : Option (List UInt8)} {fd : Fd}
    (h : readArgBody p results pending len arg = .ret r fd) :
    fd.results.length ≤ results.length := by
  fun_induction readArgBody p results pending len arg with
  | case1 results pending arg =>
    simp only [Outcome.ret.injEq] at h
    exact Nat.le_of_eq (by rw [← h.2])
  | case2 => exact absurd h (by simp)
  | case3 results pending len arg =>
    simp only [Outcome.ret.injEq] at h
    rw [← h.2]
    exact Nat.le_succ _
  | case4 => exact absurd h (by simp)
  | case5 result results pending len arg hne bytes hfits ih => exact Nat.le_succ_of_le (ih h)

theorem read_results {fd fd' : Fd} {count : Nat} {r : Option (List UInt8)}
    (h : fd.read count = .ret r fd') : fd'.results.length < fd.results.length := by
  obtain ⟨pending, results⟩ := fd
  match results, h with
  | .error :: results, h | .short k :: results, h | .full :: results, h =>
    simp only [Fd.read, Outcome.ret.injEq] at h
    simp [← h.2]

/-- What a bind that returns went through. -/
theorem Outcome.bind_eq_ret {α β : Type} {o : Outcome α} {f : α → Fd → Outcome β} {b : β} {fd' : Fd}
    (h : o.bind f = .ret b fd') : ∃ a fd, o = .ret a fd ∧ f a fd = .ret b fd' := by
  cases o with
  | ret a fd => exact ⟨a, fd, rfl, h⟩
  | blocked => exact absurd h (by simp [Outcome.bind])
  | overrun => exact absurd h (by simp [Outcome.bind])
  | died => exact absurd h (by simp [Outcome.bind])

theorem readArg_results {p : Platform} {fd fd' : Fd} {r : Option (List UInt8)}
    (h : readArg p fd = .ret r fd') : fd'.results.length < fd.results.length := by
  obtain ⟨bytes, fd₁, hread, h⟩ := Outcome.bind_eq_ret h
  have hlt := read_results hread
  split at h
  · exact Nat.lt_of_le_of_lt (readArgBody_results p _ _ _ _ h) hlt
  · simp only [Outcome.ret.injEq] at h
    rwa [← h.2]

theorem readArgs_results {p : Platform} {n : Nat} {fd fd' : Fd} {r : Option (List (List UInt8))}
    (h : readArgs p n fd = .ret r fd') : fd'.results.length ≤ fd.results.length := by
  induction n generalizing fd fd' r with
  | zero =>
    simp only [readArgs, Outcome.ret.injEq] at h
    exact h.2 ▸ Nat.le_refl _
  | succ n ih =>
    obtain ⟨arg, fd₁, harg, h⟩ := Outcome.bind_eq_ret h
    have hlt := readArg_results harg
    split at h
    · simp only [Outcome.ret.injEq] at h
      rw [← h.2]
      omega
    · obtain ⟨args, fd₂, hargs, h⟩ := Outcome.bind_eq_ret h
      simp only [Outcome.ret.injEq] at h
      have hle := ih hargs
      rw [← h.2]
      omega

theorem readControlMessage_results {p : Platform} {fd fd' : Fd} {r : Option FepControlMessage}
    (h : readControlMessage p fd = .ret r fd') : fd'.results.length < fd.results.length := by
  obtain ⟨bytes, fd₁, hread, h⟩ := Outcome.bind_eq_ret h
  have hlt := read_results hread
  split at h
  · split at h
    · exact absurd h (by simp)
    · obtain ⟨args, fd₂, hargs, h⟩ := Outcome.bind_eq_ret h
      simp only [Outcome.ret.injEq] at h
      have hle := readArgs_results hargs
      rw [← h.2]
      omega
  · simp only [Outcome.ret.injEq] at h
    rwa [← h.2]

/-! ## The arguments of a message -/

theorem controlCommandGetNArgs_eq_some {byte : UInt8} {command : FepControlCommand} {n : Nat}
    (h : controlCommandGetNArgs byte = some (command, n)) :
    byte = command.toByte ∧ n = command.nArgs := by
  have hbyte : byte = command.toByte := by
    have htrue := List.find?_some h
    exact (of_decide_eq_true htrue).symm
  rw [hbyte, controlCommandGetNArgs_toByte, Option.some.injEq, Prod.mk.injEq] at h
  exact ⟨hbyte, h.2.symm⟩

theorem length_of_readArgs {p : Platform} {n : Nat} {fd fd' : Fd} {args : List (List UInt8)}
    (h : readArgs p n fd = .ret (some args) fd') : args.length = n := by
  induction n generalizing fd fd' args with
  | zero =>
    obtain ⟨hargs, -⟩ := Outcome.ret.inj h
    rw [← Option.some.inj hargs]
    rfl
  | succ n ih =>
    rw [readArgs] at h
    obtain ⟨arg, fd₁, -, h⟩ := Outcome.bind_eq_ret h
    cases arg with
    | none => exact absurd (Outcome.ret.inj h).1 (by simp)
    | some arg =>
      obtain ⟨rest, fd₂, hrest, h⟩ := Outcome.bind_eq_ret h
      obtain ⟨rest', hrest', rfl⟩ := Option.map_eq_some_iff.mp (Outcome.ret.inj h).1
      rw [List.length_cons, ih (hrest' ▸ hrest)]

/-- A message is received with as many arguments as its command has. -/
theorem length_args_of_read {p : Platform} {fd fd' : Fd} {message : FepControlMessage}
    (h : readControlMessage p fd = .ret (some message) fd') :
    message.args.length = message.command.nArgs := by
  rw [readControlMessage] at h
  obtain ⟨bytes, fd₁, -, h⟩ := Outcome.bind_eq_ret h
  split at h
  · next byte =>
    split at h
    · exact absurd h (by simp)
    · next command nArgs hcommand =>
      obtain ⟨args, fd₂, hargs, h⟩ := Outcome.bind_eq_ret h
      obtain ⟨args', hargs', rfl⟩ := Option.map_eq_some_iff.mp (Outcome.ret.inj h).1
      obtain ⟨-, hn⟩ := controlCommandGetNArgs_eq_some hcommand
      rw [length_of_readArgs (hargs' ▸ hargs)]
      exact hn
  · exact absurd (Outcome.ret.inj h).1 (by simp)

/-! ## The sequence -/

/-- What successive calls of `_fep_read_control_message` return: a message, or `none` for -1. The
sequence ends where a call does not return. -/
def readSequence (p : Platform) (fd : Fd) : List (Option FepControlMessage) :=
  match _ : readControlMessage p fd with
  | .ret message fd' => message :: readSequence p fd'
  | .blocked | .overrun | .died => []
  termination_by fd.results.length
  decreasing_by exact readControlMessage_results ‹_›

/-- What comes after the sequence: `none` where the next call blocks, or the fault it ends with. -/
def readFault (p : Platform) (fd : Fd) : Option Fault :=
  match _ : readControlMessage p fd with
  | .ret _ fd' => readFault p fd'
  | .blocked => none
  | .overrun => some .badAccess
  | .died => some .allocFailed
  termination_by fd.results.length
  decreasing_by exact readControlMessage_results ‹_›

theorem readSequence_of_ret {p : Platform} {fd fd' : Fd} {message : Option FepControlMessage}
    (h : readControlMessage p fd = .ret message fd') :
    readSequence p fd = message :: readSequence p fd' := by
  rw [readSequence]
  split
  · next heq =>
    rw [h, Outcome.ret.injEq] at heq
    rw [heq.1, heq.2]
  all_goals next heq => rw [h] at heq; exact absurd heq (by simp)

/-- The messages that were written to a stream, as far as the platform can read them back, are read
from it. -/
theorem readSequence_wire (p : Platform) (messages : List WireMessage) (rest : List UInt8)
    (results : List ReadResult) (h : Readable p (messages.map (·.toFepControlMessage))) :
    readSequence p ⟨wire p (messages.map (·.toFepControlMessage)) ++ rest,
        List.replicate (messages.map (·.reads)).sum .full ++ results⟩ =
      messages.map (some ·.toFepControlMessage) ++ readSequence p ⟨rest, results⟩ := by
  induction messages with
  | nil => rfl
  | cons message messages ih =>
    have hmessage := h message.toFepControlMessage (by simp)
    -- the first message and its reads are taken off, the others follow
    have hmessages : Readable p (messages.map (·.toFepControlMessage)) :=
      fun m hm => h m (List.mem_cons_of_mem _ hm)
    rw [List.map_cons, wire_cons, List.map_cons, List.sum_cons, ← List.replicate_append_replicate,
      List.append_assoc, List.append_assoc,
      readSequence_of_ret (readControlMessage_of_readable p _ message _ hmessage), ih hmessages]
    rfl

/-- The first element of the sequence is what the next call returns. -/
theorem readControlMessage_of_readSequence {p : Platform} {fd : Fd}
    {message : Option FepControlMessage} {rest : List (Option FepControlMessage)}
    (h : readSequence p fd = message :: rest) :
    ∃ fd', readControlMessage p fd = .ret message fd' ∧ readSequence p fd' = rest := by
  rw [readSequence] at h
  split at h
  · next message' fd' hread =>
    obtain ⟨rfl, rfl⟩ := List.cons.inj h
    exact ⟨fd', hread, rfl⟩
  all_goals exact absurd h (by simp)

end LibFep
