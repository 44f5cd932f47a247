import LibFep.Control.ReadSequence

/-!
# LibFep — how a stream is cut into reads

`_fep_read_control_message` on a stream socket, which may return less than was asked for. The loop for
the body of an argument goes on after a short read; the read of a length word does not.

* **`ArgsArrive`** — a schedule on which the arguments arrive: each length word in one read, each body
  in pieces that fit the buffer.
* **`readControlMessage_eq_some_iff`**, **`readControlMessage_eq_none_iff`** — the reader returns a
  message on these schedules only, and -1 on those that cut a length word or come to the end of the
  stream at one.
* **`sameOnBoth_iff`** — when two schedules make no difference.
-/

namespace LibFep

open Lib

/-! ## Schedules -/

/-- A body of `len` bytes arrives in pieces that fit the buffer; the last argument is what is left of
the schedule. -/
inductive BodyArrives (p : Platform) : Nat → List ReadResult → List ReadResult → Prop
  | done (results : List ReadResult) : BodyArrives p 0 results results
  | read {len : Nat} {r : ReadResult} {results results' : List ReadResult} (hr : r ≠ .error)
      (hfits : r.limit (len + 1) ≤ p.bufsiz)
      (hrest : BodyArrives p (len + 1 - r.limit (len + 1)) results results') :
      BodyArrives p (len + 1) (r :: results) results'

/-- The arguments arrive, with the lengths that the reader assembles. -/
inductive ArgsArrive (p : Platform) : Fd → List (List UInt8) → Fd → Prop
  | nil (fd : Fd) : ArgsArrive p fd [] fd
  | cons {b0 b1 b2 b3 : UInt8} {arg rest : List UInt8} {r : ReadResult}
      {results results' : List ReadResult} {args : List (List UInt8)} {fd' : Fd}
      (hword : r.limit 4 = 4) (hlen : (p.assembleLength b0 b1 b2 b3).toNat = arg.length)
      (hbody : BodyArrives p arg.length results results')
      (hrest : ArgsArrive p ⟨rest, results'⟩ args fd') :
      ArgsArrive p ⟨b0 :: b1 :: b2 :: b3 :: (arg ++ rest), r :: results⟩ (arg :: args) fd'

/-- The next read is to be a length word and returns fewer than four bytes. -/
def WordCut (fd : Fd) : Prop :=
  ∃ r results, fd.results = r :: results ∧ (fd.pending.take (r.limit 4)).length < 4

/-- A message arrives. -/
def MessageArrives (p : Platform) (fd : Fd) (message : FepControlMessage) (fd' : Fd) : Prop :=
  ∃ r bytes results, r ≠ .error ∧ fd = ⟨message.command.toByte :: bytes, r :: results⟩ ∧
    message.args.length = message.command.nArgs ∧ ArgsArrive p ⟨bytes, results⟩ message.args fd'

/-- The schedule cuts a length word, or the stream ends at one or at the command. -/
def CutShort (p : Platform) (fd : Fd) : Prop :=
  (fd.pending = [] ∧ fd.results ≠ []) ∨
    ∃ command r bytes results args fd', r ≠ .error ∧
      fd = ⟨FepControlCommand.toByte command :: bytes, r :: results⟩ ∧
      args.length < command.nArgs ∧ ArgsArrive p ⟨bytes, results⟩ args fd' ∧ WordCut fd'

/-- A schedule on which no `read` fails. -/
def NoError (results : List ReadResult) : Prop := ∀ r ∈ results, r ≠ .error

theorem BodyArrives.suffix {p : Platform} {len : Nat} {results results' : List ReadResult}
    (h : BodyArrives p len results results') : results' <:+ results := by
  induction h with
  | done results => exact List.suffix_refl _
  | read hr hfits hrest ih => exact ih.trans (List.suffix_cons _ _)

/-! ## The body of an argument -/

theorem ReadResult.limit_pos {r : ReadResult} (hr : r ≠ .error) (len : Nat) :
    0 < r.limit (len + 1) := by
  cases r with
  | error => exact absurd rfl hr
  | short k => simp [ReadResult.limit]
  | full => simp [ReadResult.limit]

theorem ReadResult.limit_one {r : ReadResult} (hr : r ≠ .error) : r.limit 1 = 1 :=
  Nat.le_antisymm (r.limit_le 1) (ReadResult.limit_pos hr 0)

/-- One round of the body loop. -/
theorem readArgBody_succ (p : Platform) {r : ReadResult} (hr : r ≠ .error)
    (results : List ReadResult) (pending : List UInt8) (len : Nat) (arg : List UInt8) :
    readArgBody p (r :: results) pending (len + 1) arg =
      if p.bufsiz < (pending.take (r.limit (len + 1))).length then .overrun
      else readArgBody p results (pending.drop (r.limit (len + 1)))
        (len + 1 - (pending.take (r.limit (len + 1))).length)
        (arg ++ pending.take (r.limit (len + 1))) := by
  cases r with
  | error => exact absurd rfl hr
  | short k => rw [readArgBody]; simp
  | full => rw [readArgBody]; simp

theorem readArgBody_of_arrives {p : Platform} {len : Nat} {results results' : List ReadResult}
    (h : BodyArrives p len results results') {arg : List UInt8} (hlen : arg.length = len)
    (rest acc : List UInt8) :
    readArgBody p results (arg ++ rest) len acc = .ret (some (acc ++ arg)) ⟨rest, results'⟩ := by
  induction h generalizing arg acc with
  | done results =>
    rw [List.length_eq_zero_iff.mp hlen, readArgBody]
    simp
  | @read len r results results' hr hfits hrest ih =>
    have hle : r.limit (len + 1) ≤ arg.length := hlen ▸ r.limit_le (len + 1)
    have htake : (arg ++ rest).take (r.limit (len + 1)) = arg.take (r.limit (len + 1)) :=
      List.take_append_of_le_length hle
    have hlength : (arg.take (r.limit (len + 1))).length = r.limit (len + 1) := by
      rw [List.length_take]
      omega
    rw [readArgBody_succ p hr, htake, hlength, if_neg (by omega),
      List.drop_append_of_le_length hle, ih (by rw [List.length_drop, hlen]), List.append_assoc,
      List.take_append_drop]

/-- **The body loop returns only when the body has arrived.** At the end of the stream a read returns
no bytes, and the loop asks again. -/
theorem arrives_of_readArgBody {p : Platform} {results : List ReadResult} (hne : NoError results)
    {pending : List UInt8} {len : Nat} {acc : List UInt8} {v : Option (List UInt8)} {fd : Fd}
    (h : readArgBody p results pending len acc = .ret v fd) :
    ∃ arg, pending = arg ++ fd.pending ∧ arg.length = len ∧ v = some (acc ++ arg) ∧
      BodyArrives p len results fd.results := by
  induction results generalizing pending len acc with
  | nil =>
    cases len with
    | zero =>
      rw [readArgBody, Outcome.ret.injEq] at h
      obtain ⟨rfl, rfl⟩ := h
      exact ⟨[], rfl, rfl, by simp, .done _⟩
    | succ len => exact absurd h (by simp [readArgBody])
  | cons r results ih =>
    cases len with
    | zero =>
      rw [readArgBody, Outcome.ret.injEq] at h
      obtain ⟨rfl, rfl⟩ := h
      exact ⟨[], rfl, rfl, by simp, .done _⟩
    | succ len =>
      have hr := hne r List.mem_cons_self
      rw [readArgBody_succ p hr] at h
      split at h
      · exact absurd h (by simp)
      · next hfits =>
        obtain ⟨arg, hdrop, hlen, hv, hrest⟩ := ih (fun r' hr' => hne r' (List.mem_cons_of_mem _ hr')) h
        have hle := r.limit_le (len + 1)
        have hdroplen := congrArg List.length hdrop
        rw [List.length_drop, List.length_append] at hdroplen
        rw [List.length_take] at hlen hfits hrest
        -- the read has returned as much as it may, or nothing would be left for the rest
        have hmin : min (r.limit (len + 1)) pending.length = r.limit (len + 1) := by
          have hpos := ReadResult.limit_pos hr len
          omega
        rw [hmin] at hlen hfits hrest
        refine ⟨pending.take (r.limit (len + 1)) ++ arg, ?_, ?_, ?_, .read hr (by omega) hrest⟩
        · rw [List.append_assoc, ← hdrop, List.take_append_drop]
        · rw [List.length_append, List.length_take, hmin, hlen]
          omega
        · rw [hv, List.append_assoc]

/-! ## The arguments -/

theorem read_cons {r : ReadResult} (hr : r ≠ .error) (pending : List UInt8)
    (results : List ReadResult) (count : Nat) :
    Fd.read ⟨pending, r :: results⟩ count =
      .ret (some (pending.take (r.limit count))) ⟨pending.drop (r.limit count), results⟩ := by
  cases r with
  | error => exact absurd rfl hr
  | short k => rfl
  | full => rfl

theorem readArg_word (p : Platform) {r : ReadResult} (hr : r.limit 4 = 4) (b0 b1 b2 b3 : UInt8)
    (bytes : List UInt8) (results : List ReadResult) :
    readArg p ⟨b0 :: b1 :: b2 :: b3 :: bytes, r :: results⟩ =
      readArgBody p results bytes (p.assembleLength b0 b1 b2 b3).toNat [] := by
  have hne : r ≠ .error := by
    rintro rfl
    exact absurd hr (by decide)
  rw [readArg, read_cons hne, hr]
  rfl

/-- A length word that is cut is taken for the end of the stream. -/
theorem readArg_of_wordCut (p : Platform) {fd : Fd} (h : WordCut fd) :
    ∃ fd', readArg p fd = .ret none fd' := by
  obtain ⟨pending, results⟩ := fd
  obtain ⟨r, results, rfl, hlt⟩ := h
  by_cases hr : r = .error
  · subst hr
    exact ⟨_, rfl⟩
  · rw [readArg, read_cons hr]
    simp only [Outcome.bind]
    split
    · next heq =>
      rw [Option.some.inj heq] at hlt
      exact absurd hlt (by simp)
    · exact ⟨_, rfl⟩

/-- **One argument**: it arrives, or its length word is cut. -/
theorem readArg_cases {p : Platform} {fd fd' : Fd} (hne : NoError fd.results)
    {v : Option (List UInt8)} (h : readArg p fd = .ret v fd') :
    (v = none ∧ WordCut fd) ∨
      ∃ arg, v = some arg ∧ ArgsArrive p fd [arg] fd' ∧ NoError fd'.results := by
  obtain ⟨pending, results⟩ := fd
  cases results with
  | nil => exact absurd h (by simp [readArg, Fd.read, Outcome.bind])
  | cons r results =>
    have hr := hne r List.mem_cons_self
    rw [readArg, read_cons hr] at h
    simp only [Outcome.bind] at h
    split at h
    · next b0 b1 b2 b3 heq =>
      have htake := Option.some.inj heq
      have hlimit : r.limit 4 = 4 := by
        have hlen := congrArg List.length htake
        have hle := r.limit_le 4
        rw [List.length_take] at hlen
        simp only [List.length_cons, List.length_nil] at hlen
        omega
      have hne' : NoError results := fun r' hr' => hne r' (List.mem_cons_of_mem _ hr')
      obtain ⟨arg, hdrop, hlen, hv, hbody⟩ := arrives_of_readArgBody hne' h
      have hpending := List.take_append_drop (r.limit 4) pending
      rw [htake, hdrop] at hpending
      refine Or.inr ⟨arg, hv, ?_, fun r' hr' => hne' r' (hbody.suffix.subset hr')⟩
      rw [← hpending]
      exact .cons hlimit hlen.symm (hlen.symm ▸ hbody) (.nil fd')
    · next hshort =>
      rw [Outcome.ret.injEq] at h
      refine Or.inl ⟨h.1.symm, r, results, rfl, ?_⟩
      by_contra hge
      -- four bytes would have been read
      have hfour : (pending.take (r.limit 4)).length = 4 := by
        have hle := r.limit_le 4
        rw [List.length_take] at hge ⊢
        dsimp only at hge
        omega
      exact hshort _ _ _ _ (congrArg some (List.eq_getElem_of_length_eq_four _ hfour))

theorem ArgsArrive.append {p : Platform} {fd fd₁ fd₂ : Fd} {args args' : List (List UInt8)}
    (h : ArgsArrive p fd args fd₁) (h' : ArgsArrive p fd₁ args' fd₂) :
    ArgsArrive p fd (args ++ args') fd₂ := by
  induction h with
  | nil fd => exact h'
  | cons hword hlen hbody hrest ih => exact .cons hword hlen hbody (ih h')

theorem readArgs_of_arrive {p : Platform} {fd fd' : Fd} {args : List (List UInt8)}
    (h : ArgsArrive p fd args fd') : readArgs p args.length fd = .ret (some args) fd' := by
  induction h with
  | nil fd => rfl
  | @cons b0 b1 b2 b3 arg rest r results results' args fd' hword hlen hbody hrest ih =>
    have hfirst := readArgBody_of_arrives hbody rfl rest []
    rw [List.length_cons, readArgs, readArg_word p hword, hlen, hfirst]
    simp only [Outcome.bind, List.nil_append, ih, Option.map_some]

theorem readArgs_of_cut {p : Platform} {fd fd' : Fd} {args : List (List UInt8)}
    (h : ArgsArrive p fd args fd') (hcut : WordCut fd') (n : Nat) :
    ∃ fd'', readArgs p (args.length + (n + 1)) fd = .ret none fd'' := by
  induction h with
  | nil fd =>
    obtain ⟨fd'', hread⟩ := readArg_of_wordCut p hcut
    refine ⟨fd'', ?_⟩
    rw [List.length_nil, Nat.zero_add, readArgs, hread]
    rfl
  | @cons b0 b1 b2 b3 arg rest r results results' args fd' hword hlen hbody hrest ih =>
    obtain ⟨fd'', hread⟩ := ih hcut
    refine ⟨fd'', ?_⟩
    have hfirst := readArgBody_of_arrives hbody rfl rest []
    rw [List.length_cons, show args.length + 1 + (n + 1) = args.length + (n + 1) + 1 from by omega,
      readArgs, readArg_word p hword, hlen, hfirst]
    simp only [Outcome.bind, hread, Option.map_none]

/-- **All arguments**: they arrive, or a length word is cut on the way. -/
theorem readArgs_cases {p : Platform} {n : Nat} {fd fd' : Fd} (hne : NoError fd.results)
    {v : Option (List (List UInt8))} (h : readArgs p n fd = .ret v fd') :
    (∃ args, v = some args ∧ args.length = n ∧ ArgsArrive p fd args fd') ∨
      (v = none ∧ ∃ args fd₁, args.length < n ∧ ArgsArrive p fd args fd₁ ∧ WordCut fd₁) := by
  induction n generalizing fd fd' v with
  | zero =>
    rw [readArgs, Outcome.ret.injEq] at h
    obtain ⟨rfl, rfl⟩ := h
    exact Or.inl ⟨[], rfl, rfl, .nil fd⟩
  | succ n ih =>
    obtain ⟨arg?, fd₁, hfirst, hrest⟩ := Outcome.bind_eq_ret h
    rcases readArg_cases hne hfirst with ⟨rfl, hcut⟩ | ⟨arg, rfl, harg, hne₁⟩
    · rw [Outcome.ret.injEq] at hrest
      exact Or.inr ⟨hrest.1.symm, [], fd, Nat.zero_lt_succ n, .nil fd, hcut⟩
    · obtain ⟨args?, fd₂, hargs, hret⟩ := Outcome.bind_eq_ret hrest
      rw [Outcome.ret.injEq] at hret
      obtain ⟨rfl, rfl⟩ := hret
      rcases ih hne₁ hargs with ⟨args, rfl, hlen, harrive⟩ | ⟨rfl, args, fd₃, hlt, harrive, hcut⟩
      · exact Or.inl ⟨arg :: args, rfl, by rw [List.length_cons, hlen], harg.append harrive⟩
      · exact Or.inr ⟨rfl, arg :: args, fd₃, by rw [List.length_cons]; omega, harg.append harrive,
          hcut⟩

/-! ## The message -/

theorem toByte_inj {command command' : FepControlCommand}
    (h : command.toByte = command'.toByte) : command = command' := by
  have hget := congrArg controlCommandGetNArgs h
  simp only [controlCommandGetNArgs_toByte, Option.some.injEq, Prod.mk.injEq] at hget
  exact hget.1

theorem readControlMessage_command (p : Platform) {r : ReadResult} (hr : r ≠ .error)
    (command : FepControlCommand) (bytes : List UInt8) (results : List ReadResult) :
    readControlMessage p ⟨command.toByte :: bytes, r :: results⟩ =
      (readArgs p command.nArgs ⟨bytes, results⟩).bind
        fun args fd => .ret (args.map (⟨command, ·⟩)) fd := by
  rw [readControlMessage, read_cons hr, ReadResult.limit_one hr]
  simp only [Outcome.bind, List.take_succ_cons, List.take_zero, List.drop_succ_cons, List.drop_zero,
    controlCommandGetNArgs_toByte]

/-- What a call that returns has read. -/
theorem readControlMessage_cases {p : Platform} {fd fd' : Fd} (hne : NoError fd.results)
    {v : Option FepControlMessage} (h : readControlMessage p fd = .ret v fd') :
    (∃ message, v = some message ∧ MessageArrives p fd message fd') ∨ (v = none ∧ CutShort p fd) := by
  obtain ⟨pending, results⟩ := fd
  cases results with
  | nil => exact absurd h (by simp [readControlMessage, Fd.read, Outcome.bind])
  | cons r results =>
    have hr := hne r List.mem_cons_self
    have hne' : NoError results := fun r' hr' => hne r' (List.mem_cons_of_mem _ hr')
    cases pending with
    | nil =>
      rw [readControlMessage, read_cons hr] at h
      simp only [Outcome.bind, List.take_nil, Outcome.ret.injEq] at h
      exact Or.inr ⟨h.1.symm, Or.inl ⟨rfl, by simp⟩⟩
    | cons byte bytes =>
      by_cases hknown : ∃ command, byte = FepControlCommand.toByte command
      · obtain ⟨command, rfl⟩ := hknown
        rw [readControlMessage_command p hr] at h
        obtain ⟨args?, fd₁, hargs, hret⟩ := Outcome.bind_eq_ret h
        rw [Outcome.ret.injEq] at hret
        obtain ⟨rfl, rfl⟩ := hret
        rcases readArgs_cases hne' hargs with ⟨args, rfl, hlen, harrive⟩ |
          ⟨rfl, args, fd₂, hlt, harrive, hcut⟩
        · exact Or.inl ⟨⟨command, args⟩, rfl, r, bytes, results, hr, rfl, hlen, harrive⟩
        · exact Or.inr ⟨rfl, Or.inr ⟨command, r, bytes, results, args, fd₂, hr, rfl, hlt, harrive,
            hcut⟩⟩
      · have hunknown : controlCommandGetNArgs byte = none := by
          cases hget : controlCommandGetNArgs byte with
          | none => rfl
          | some entry => exact absurd ⟨entry.1, (controlCommandGetNArgs_eq_some hget).1⟩ hknown
        rw [readControlMessage, read_cons hr, ReadResult.limit_one hr] at h
        simp only [Outcome.bind, List.take_succ_cons, List.take_zero, hunknown] at h
        exact absurd h (by simp)

/-- **The reader returns a message exactly when it arrives.** -/
theorem readControlMessage_eq_some_iff {p : Platform} {fd fd' : Fd} (hne : NoError fd.results)
    {message : FepControlMessage} :
    readControlMessage p fd = .ret (some message) fd' ↔ MessageArrives p fd message fd' := by
  constructor
  · intro h
    rcases readControlMessage_cases hne h with ⟨message', heq, harrives⟩ | ⟨hnone, -⟩
    · rwa [Option.some.inj heq]
    · exact absurd hnone (by simp)
  · rintro ⟨r, bytes, results, hr, rfl, hlen, harrive⟩
    rw [readControlMessage_command p hr, ← hlen, readArgs_of_arrive harrive]
    rfl

/-- **The reader returns -1 exactly when the schedule cuts it short.** -/
theorem readControlMessage_eq_none_iff {p : Platform} {fd : Fd} (hne : NoError fd.results) :
    (∃ fd', readControlMessage p fd = .ret none fd') ↔ CutShort p fd := by
  constructor
  · rintro ⟨fd', h⟩
    rcases readControlMessage_cases hne h with ⟨message, hnone, -⟩ | ⟨-, hcut⟩
    · exact absurd hnone (by simp)
    · exact hcut
  · rintro (⟨hnil, hresults⟩ | ⟨command, r, bytes, results, args, fd', hr, rfl, hlt, harrive, hcut⟩)
    · obtain ⟨pending, results⟩ := fd
      obtain ⟨r, results, rfl⟩ := List.exists_cons_of_ne_nil hresults
      obtain rfl : pending = [] := hnil
      rw [readControlMessage, read_cons (hne r List.mem_cons_self), List.take_nil]
      exact ⟨_, rfl⟩
    · obtain ⟨n, hn⟩ := Nat.exists_eq_add_of_lt hlt
      obtain ⟨fd'', hread⟩ := readArgs_of_cut harrive hcut n
      refine ⟨fd'', ?_⟩
      rw [readControlMessage_command p hr, hn, Nat.add_assoc, hread]
      rfl

/-! ## Two schedules -/

/-- Both calls return, and they return the same. -/
def SameOnBoth (p : Platform) (bytes : List UInt8) (s s' : List ReadResult) : Prop :=
  ∃ v fd fd', readControlMessage p ⟨bytes, s⟩ = .ret v fd ∧
    readControlMessage p ⟨bytes, s'⟩ = .ret v fd'

/-- On the schedule a message arrives: every length word in one read, every body in pieces that fit
the buffer. -/
def Arrives (p : Platform) (fd : Fd) : Prop := ∃ message fd', MessageArrives p fd message fd'

/-- What arrives depends on the stream only. Induction on the arguments: the length words are the
same, so that the bodies are. -/
theorem ArgsArrive.unique {p : Platform} {bytes : List UInt8} {s s' : List ReadResult}
    {args args' : List (List UInt8)} {fd fd' : Fd} (h : ArgsArrive p ⟨bytes, s⟩ args fd)
    (h' : ArgsArrive p ⟨bytes, s'⟩ args' fd') (hlen : args.length = args'.length) :
    args = args' := by
  induction args generalizing bytes s s' args' with
  | nil => exact (List.length_eq_zero_iff.mp hlen.symm).symm
  | cons arg args ih =>
    cases args' with
    | nil => exact absurd hlen (by simp)
    | cons arg' args' =>
      cases h with
      | @cons b0 b1 b2 b3 _ rest _ _ _ _ _ hword hword_len hbody hrest =>
        generalize hbytes : b0 :: b1 :: b2 :: b3 :: (arg ++ rest) = bytes at h'
        cases h' with
        | @cons c0 c1 c2 c3 _ rest' _ _ _ _ _ hword' hword_len' hbody' hrest' =>
          simp only [List.cons.injEq] at hbytes
          obtain ⟨rfl, rfl, rfl, rfl, happend⟩ := hbytes
          have hsame : arg.length = arg'.length := hword_len.symm.trans hword_len'
          obtain ⟨rfl, rfl⟩ := List.append_inj happend hsame
          rw [ih hrest hrest' (Nat.succ.inj hlen)]

theorem MessageArrives.unique {p : Platform} {bytes : List UInt8} {s s' : List ReadResult}
    {message message' : FepControlMessage} {fd fd' : Fd}
    (h : MessageArrives p ⟨bytes, s⟩ message fd) (h' : MessageArrives p ⟨bytes, s'⟩ message' fd') :
    message = message' := by
  obtain ⟨command, args⟩ := message
  obtain ⟨command', args'⟩ := message'
  obtain ⟨r, rest, results, -, hfd, hlen, harrive⟩ := h
  obtain ⟨r', rest', results', -, hfd', hlen', harrive'⟩ := h'
  obtain ⟨rfl, -⟩ := Fd.mk.inj hfd
  obtain ⟨hbytes, -⟩ := Fd.mk.inj hfd'
  obtain ⟨hcommand, rfl⟩ := List.cons.inj hbytes
  obtain rfl : command = command' := toByte_inj hcommand
  exact congrArg (FepControlMessage.mk command) (harrive.unique harrive' (hlen.trans hlen'.symm))

/-- **When two ways of cutting a stream make no difference to the reader**: on both of them a message
arrives, or on both the reader is cut short. -/
theorem sameOnBoth_iff (p : Platform) (bytes : List UInt8) {s s' : List ReadResult}
    (hs : NoError s) (hs' : NoError s') :
    SameOnBoth p bytes s s' ↔
      (Arrives p ⟨bytes, s⟩ ∧ Arrives p ⟨bytes, s'⟩) ∨
        (CutShort p ⟨bytes, s⟩ ∧ CutShort p ⟨bytes, s'⟩) := by
  constructor
  · rintro ⟨v, fd, fd', h, h'⟩
    cases v with
    | some message =>
      have harrives := (readControlMessage_eq_some_iff hs).mp h
      have harrives' := (readControlMessage_eq_some_iff hs').mp h'
      exact Or.inl ⟨⟨message, fd, harrives⟩, message, fd', harrives'⟩
    | none =>
      have hcut := (readControlMessage_eq_none_iff hs).mp ⟨fd, h⟩
      have hcut' := (readControlMessage_eq_none_iff hs').mp ⟨fd', h'⟩
      exact Or.inr ⟨hcut, hcut'⟩
  · rintro (⟨⟨message, fd, h⟩, message', fd', h'⟩ | ⟨hcut, hcut'⟩)
    · obtain rfl := h.unique h'
      exact ⟨some message, fd, fd', (readControlMessage_eq_some_iff hs).mpr h,
        (readControlMessage_eq_some_iff hs').mpr h'⟩
    · obtain ⟨fd, h⟩ := (readControlMessage_eq_none_iff hs).mpr hcut
      obtain ⟨fd', h'⟩ := (readControlMessage_eq_none_iff hs').mpr hcut'
      exact ⟨none, fd, fd', h, h'⟩

/-- SEND_DATA with the data `a`. -/
def sendDataA : List UInt8 := [4, 1, 0, 0, 0, 97]

theorem sameOnBoth_iff_bytewise :
    SameOnBoth .x86_64 sendDataA [.full, .full, .full] [.short 0, .short 3, .short 0] ↔
      (Arrives .x86_64 ⟨sendDataA, [.full, .full, .full]⟩ ∧
          Arrives .x86_64 ⟨sendDataA, [.short 0, .short 3, .short 0]⟩) ∨
        (CutShort .x86_64 ⟨sendDataA, [.full, .full, .full]⟩ ∧
          CutShort .x86_64 ⟨sendDataA, [.short 0, .short 3, .short 0]⟩) :=
  sameOnBoth_iff .x86_64 sendDataA (by simp [NoError]) (by simp [NoError])

/-- The length word in two halves: the reader gives up. -/
theorem not_sameOnBoth_halves :
    NoError [.full, .short 1, .full, .full] ∧
      ¬ SameOnBoth .x86_64 sendDataA [.full, .full, .full] [.full, .short 1, .full, .full] := by
  refine ⟨by simp [NoError], ?_⟩
  rintro ⟨v, fd, fd', h, h'⟩
  have hwhole : readControlMessage .x86_64 ⟨sendDataA, [.full, .full, .full]⟩ =
      .ret (some ⟨.sendData, [[97]]⟩) ⟨[], []⟩ := by decide +kernel
  have hhalves : readControlMessage .x86_64 ⟨sendDataA, [.full, .short 1, .full, .full]⟩ =
      .ret none ⟨[0, 0, 97], [.full, .full]⟩ := by decide +kernel
  rw [hwhole, Outcome.ret.injEq] at h
  rw [hhalves, Outcome.ret.injEq, ← h.1] at h'
  exact absurd h'.1 (by simp)

end LibFep
