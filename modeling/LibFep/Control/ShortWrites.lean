import LibFep.Control.Wire

/-!
# LibFep — short writes of a control message

`_fep_write_control_message` on a socket that may accept less than it is given. The loop for the bytes
of an argument writes what is left; the call that writes a length word only looks whether it failed.

* **`lengthResults`** — the results that fall on the length words.
* **`writeControlMessage_of_some`**, **`writeControlMessage_of_none`** — what is written when no call
  fails, and when one does.
* **`reportsWritten_iff`** — the schedules on which the return value tells what the socket has accepted.
-/

namespace LibFep

open Lib

/-! ## The calls of a schedule -/

/-- The results left after the bytes of an argument, `none` if one of its calls fails. -/
def bodyLeft : List WriteResult → Nat → Option (List WriteResult)
  | results, 0 => some results
  | [], _ + 1 => some []
  | .error :: _, _ + 1 => none
  | .full :: results, _ + 1 => some results
  | .short k :: results, len + 1 => bodyLeft results (len - k)

/-- The results of the calls that write the length words of arguments of these lengths, `none` if a
call fails. Once the schedule is used up, all calls accept what they are given. -/
def argLengthResults : List WriteResult → List Nat → Option (List WriteResult)
  | _, [] => some []
  | [], _ :: _ => some []
  | .error :: _, _ :: _ => none
  | result :: results, len :: lens =>
    (bodyLeft results len).bind fun left => (argLengthResults left lens).map (result :: ·)

/-- The same for a message: its first call writes the command. -/
def lengthResults (results : List WriteResult) (lens : List Nat) : Option (List WriteResult) :=
  match results with
  | [] => some []
  | .error :: _ => none
  | _ :: results => argLengthResults results lens

/-- None of the calls accepts fewer than four bytes. -/
def Whole (words : List WriteResult) : Prop := ∀ k < 3, .short k ∉ words

theorem whole_nil : Whole [] := fun _ _ => List.not_mem_nil

theorem whole_cons {r : WriteResult} {words : List WriteResult} :
    Whole (r :: words) ↔ (∀ k < 3, r ≠ .short k) ∧ Whole words := by
  constructor
  · intro h
    refine ⟨fun k hk hr => h k hk (hr ▸ List.mem_cons_self), fun k hk hmem => ?_⟩
    exact h k hk (List.mem_cons_of_mem _ hmem)
  · rintro ⟨hr, hwords⟩ k hk hmem
    rcases List.mem_cons.mp hmem with heq | hmem
    · exact hr k hk heq.symm
    · exact hwords k hk hmem

/-! ## The bytes of an argument -/

/-- The loop over the bytes writes all of them unless a call fails. -/
theorem writeArgBody_of_some {results left : List WriteResult} {arg : List UInt8}
    (h : bodyLeft results arg.length = some left) : writeArgBody results arg = ⟨0, arg, left⟩ := by
  induction results generalizing arg with
  | nil =>
    cases arg with
    | nil => rw [← Option.some.inj h, writeArgBody]
    | cons byte arg => rw [← Option.some.inj h, writeArgBody_complete]
  | cons r results ih =>
    cases arg with
    | nil => rw [← Option.some.inj h, writeArgBody]
    | cons byte arg =>
      rw [List.length_cons] at h
      cases r with
      | error => exact absurd h (by simp [bodyLeft])
      | full =>
        rw [bodyLeft, Option.some.injEq] at h
        rw [h]
        rfl
      | short k =>
        rw [bodyLeft] at h
        have hleft : bodyLeft results ((byte :: arg).drop (k + 1)).length = some left := by
          rwa [List.drop_succ_cons, List.length_drop]
        rw [writeArgBody, ih hleft, List.take_append_drop]
        simp

theorem writeArgBody_of_none {results : List WriteResult} {arg : List UInt8}
    (h : bodyLeft results arg.length = none) : (writeArgBody results arg).retval = -1 := by
  induction results generalizing arg with
  | nil => cases arg <;> exact absurd h (by simp [bodyLeft])
  | cons r results ih =>
    cases arg with
    | nil => exact absurd h (by simp [bodyLeft])
    | cons byte arg =>
      rw [List.length_cons] at h
      cases r with
      | error => rfl
      | full => exact absurd h (by simp [bodyLeft])
      | short k =>
        rw [bodyLeft] at h
        have hleft : bodyLeft results ((byte :: arg).drop (k + 1)).length = none := by
          rwa [List.drop_succ_cons, List.length_drop]
        rw [writeArgBody]
        · exact ih hleft
        · simp

/-! ## The arguments -/

theorem length_encodeArg (arg : List UInt8) : (encodeArg arg).length = 4 + arg.length := by
  simp only [encodeArg, List.length_append, List.length_cons, List.length_nil]

/-- The part of a length word that a call accepts. -/
def acceptedWord (r : WriteResult) (arg : List UInt8) : List UInt8 :=
  match r with
  | .short k => ((encodeArg arg).take 4).take (k + 1)
  | _ => (encodeArg arg).take 4

theorem writeArg_cons (p : Platform) {r : WriteResult} (hr : r ≠ .error)
    (results : List WriteResult) (arg : List UInt8) :
    writeArg p (r :: results) arg =
      { writeArgBody results arg with
        bytes := acceptedWord r arg ++ (writeArgBody results arg).bytes } := by
  cases r with
  | error => exact absurd rfl hr
  | short k => simp [writeArg, write, acceptedWord, encodeArg, Platform.wireWord_eq]
  | full => simp [writeArg, write, acceptedWord, encodeArg, Platform.wireWord_eq]

theorem length_acceptedWord_le (r : WriteResult) (arg : List UInt8) :
    (acceptedWord r arg).length ≤ 4 := by
  have htake : ((encodeArg arg).take 4).length ≤ 4 := List.length_take_le _ _
  cases r with
  | error => exact htake
  | full => exact htake
  | short k => exact Nat.le_trans (List.length_take_le' _ _) htake

theorem length_acceptedWord {r : WriteResult} {arg : List UInt8}
    (h : (acceptedWord r arg).length = 4) : ∀ k < 3, r ≠ .short k := by
  rintro k hk rfl
  simp only [acceptedWord, List.length_take, length_encodeArg] at h
  omega

theorem acceptedWord_append {r : WriteResult} {arg : List UInt8} (h : ∀ k < 3, r ≠ .short k) :
    acceptedWord r arg ++ arg = encodeArg arg := by
  have hword : acceptedWord r arg = (encodeArg arg).take 4 := by
    cases r with
    | error => rfl
    | full => rfl
    | short k =>
      have hk : 3 ≤ k := Nat.le_of_not_lt fun hlt => h k hlt rfl
      rw [acceptedWord, List.take_take, Nat.min_eq_right (by omega)]
  rw [hword]
  rfl

theorem argLengthResults_cons {r : WriteResult} (hr : r ≠ .error) (results : List WriteResult)
    (len : Nat) (lens : List Nat) :
    argLengthResults (r :: results) (len :: lens) =
      (bodyLeft results len).bind fun left => (argLengthResults left lens).map (r :: ·) := by
  cases r with
  | error => exact absurd rfl hr
  | short k => rfl
  | full => rfl

/-- **All arguments**, when no call fails: they are written, but for the bytes that the calls for the
length words have not accepted. -/
theorem writeArgs_of_some (p : Platform) {results words : List WriteResult}
    {args : List (List UInt8)} (h : argLengthResults results (args.map List.length) = some words) :
    (writeArgs p results args).retval = 0 ∧
      (writeArgs p results args).bytes.length ≤ (args.flatMap encodeArg).length ∧
      ((writeArgs p results args).bytes.length = (args.flatMap encodeArg).length → Whole words) ∧
      (Whole words → (writeArgs p results args).bytes = args.flatMap encodeArg) := by
  induction args generalizing results words with
  | nil =>
    rw [List.map_nil, argLengthResults, Option.some.injEq] at h
    subst h
    exact ⟨rfl, Nat.le_refl _, fun _ => whole_nil, fun _ => rfl⟩
  | cons arg args ih =>
    rw [List.map_cons] at h
    cases results with
    | nil =>
      rw [argLengthResults, Option.some.injEq] at h
      subst h
      rw [writeArgs_complete]
      exact ⟨rfl, Nat.le_refl _, fun _ => whole_nil, fun _ => rfl⟩
    | cons r results =>
      by_cases hr : r = .error
      · subst hr
        exact absurd h (by simp [argLengthResults])
      · rw [argLengthResults_cons hr] at h
        obtain ⟨left, hleft, h⟩ := Option.bind_eq_some_iff.mp h
        obtain ⟨rest, hrest, rfl⟩ := Option.map_eq_some_iff.mp h
        obtain ⟨hret, hle, hwhole, hbytes⟩ := ih hrest
        have hword := length_acceptedWord_le r arg
        rw [writeArgs, writeArg_cons p hr, writeArgBody_of_some hleft, List.flatMap_cons,
          List.length_append, length_encodeArg]
        simp only [Int.lt_irrefl, if_false, List.length_append]
        refine ⟨hret, by omega, fun hlen => ?_, fun hw => ?_⟩
        · have hfirst : (acceptedWord r arg).length = 4 := by omega
          exact whole_cons.mpr ⟨length_acceptedWord hfirst, hwhole (by omega)⟩
        · obtain ⟨hr, hw⟩ := whole_cons.mp hw
          rw [acceptedWord_append hr, hbytes hw]

theorem writeArgs_of_none (p : Platform) {results : List WriteResult} {args : List (List UInt8)}
    (h : argLengthResults results (args.map List.length) = none) :
    (writeArgs p results args).retval = -1 := by
  induction args generalizing results with
  | nil => exact absurd h (by simp [argLengthResults])
  | cons arg args ih =>
    rw [List.map_cons] at h
    cases results with
    | nil => exact absurd h (by simp [argLengthResults])
    | cons r results =>
      by_cases hr : r = .error
      · subst hr
        rfl
      · rw [argLengthResults_cons hr] at h
        rw [writeArgs, writeArg_cons p hr]
        cases hleft : bodyLeft results arg.length with
        | none =>
          -- the bytes of this argument fail
          have hbody := writeArgBody_of_none hleft
          rw [if_pos (by rw [hbody]; decide)]
          exact hbody
        | some left =>
          rw [hleft, Option.bind_some, Option.map_eq_none_iff] at h
          rw [writeArgBody_of_some hleft]
          exact ih h

/-! ## The message -/

theorem writeControlMessage_cons (p : Platform) {r : WriteResult} (hr : r ≠ .error)
    (results : List WriteResult) (message : FepControlMessage) :
    writeControlMessage p (r :: results) message =
      { writeArgs p results message.args with
        bytes := message.command.toByte :: (writeArgs p results message.args).bytes } := by
  cases r with
  | error => exact absurd rfl hr
  | short k => simp [writeControlMessage, write]
  | full => rfl

/-- **When no call fails** the writer returns 0, and the socket has accepted the encoding of the message
exactly when it has accepted all length words whole. -/
theorem writeControlMessage_of_some (p : Platform) {results words : List WriteResult}
    {message : FepControlMessage}
    (h : lengthResults results (message.args.map List.length) = some words) :
    (writeControlMessage p results message).retval = 0 ∧
      ((writeControlMessage p results message).bytes = message.encode ↔ Whole words) := by
  cases results with
  | nil =>
    rw [lengthResults, Option.some.injEq] at h
    subst h
    rw [writeControlMessage_complete]
    exact ⟨rfl, iff_of_true rfl whole_nil⟩
  | cons r results =>
    by_cases hr : r = .error
    · subst hr
      exact absurd h (by simp [lengthResults])
    · have hargs : argLengthResults results (message.args.map List.length) = some words := by
        cases r with
        | error => exact absurd rfl hr
        | short k => exact h
        | full => exact h
      obtain ⟨hret, -, hwhole, hbytes⟩ := writeArgs_of_some p hargs
      rw [writeControlMessage_cons p hr, FepControlMessage.encode, List.cons.injEq]
      refine ⟨hret, fun heq => hwhole ?_, fun hw => ⟨rfl, hbytes hw⟩⟩
      exact congrArg List.length heq.2

/-- **When a call fails** the writer returns -1. -/
theorem writeControlMessage_of_none (p : Platform) {results : List WriteResult}
    {message : FepControlMessage}
    (h : lengthResults results (message.args.map List.length) = none) :
    (writeControlMessage p results message).retval = -1 := by
  cases results with
  | nil => exact absurd h (by simp [lengthResults])
  | cons r results =>
    cases r with
    | error => rfl
    | short k =>
      rw [writeControlMessage_cons p (by simp)]
      exact writeArgs_of_none p h
    | full =>
      rw [writeControlMessage_cons p (by simp)]
      exact writeArgs_of_none p h

/-- The return value tells what the socket has accepted: 0 only if that is the encoding of the message,
and -1 if it is not. -/
def ReportsWritten (p : Platform) (results : List WriteResult) (message : FepControlMessage) : Prop :=
  ((writeControlMessage p results message).retval = 0 →
      (writeControlMessage p results message).bytes = message.encode) ∧
    ((writeControlMessage p results message).bytes ≠ message.encode →
      (writeControlMessage p results message).retval = -1)

/-- **When the return value can be relied on**: some call fails, or every call for a length word accepts
all four bytes. -/
theorem reportsWritten_iff (p : Platform) (results : List WriteResult)
    (message : FepControlMessage) :
    ReportsWritten p results message ↔
      ∀ words, lengthResults results (message.args.map List.length) = some words → Whole words := by
  rw [ReportsWritten]
  cases hwords : lengthResults results (message.args.map List.length) with
  | none =>
    have hret := writeControlMessage_of_none p hwords
    rw [hret]
    simp
  | some words =>
    obtain ⟨hret, hbytes⟩ := writeControlMessage_of_some p hwords
    rw [hret, Ne, hbytes]
    constructor
    · rintro ⟨hwhole, -⟩ words' hsome
      obtain rfl := Option.some.inj hsome
      exact hwhole rfl
    · intro hwhole
      exact ⟨fun _ => hwhole words rfl, fun hnot => absurd (hwhole words rfl) hnot⟩

/-- SEND_DATA with the data `a`, and a call that accepts two of the four bytes of its length: the writer
returns 0 for a stream without the other two. -/
theorem not_reportsWritten_half :
    ¬ ReportsWritten .x86_64 [.full, .short 1, .full] ⟨.sendData, [[97]]⟩ ∧
      writeControlMessage .x86_64 [.full, .short 1, .full] ⟨.sendData, [[97]]⟩ =
        ⟨0, [4, 1, 0, 97], []⟩ := by
  have hwritten : writeControlMessage .x86_64 [.full, .short 1, .full] ⟨.sendData, [[97]]⟩ =
      ⟨0, [4, 1, 0, 97], []⟩ := by decide
  refine ⟨fun h => ?_, hwritten⟩
  rw [ReportsWritten, hwritten] at h
  exact absurd (h.1 rfl) (by decide)

end LibFep
