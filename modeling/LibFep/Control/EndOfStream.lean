import LibFep.Control.Fragments

/-!
# LibFep — the end of a stream

`_fep_read_control_message` on a stream that ends: every `read` behind its last byte returns 0. At the
command and at a length word the reader takes this for a failure. In the body of an argument it goes
on asking, for a loop that has received nothing has still all of it to receive.

* **`framing`** — how a stream divides into arguments, with the lengths that the reader assembles, and
  where it ends.
* **`returnsAtEnd_iff`** — the streams on which the reader returns, and returns -1 if the message is not
  complete.
-/

namespace LibFep

open Lib

/-! ## Framing -/

/-- Where a stream ends that is divided into arguments. -/
inductive StreamEnd where
  /-- Not before the end of the last argument. -/
  | complete
  /-- At a length word. -/
  | inLength
  /-- In the body of an argument. -/
  | inBody
  deriving DecidableEq, Repr

/-- The arguments that a stream holds in full, of at most `n`, and where it ends. -/
def framing (p : Platform) : Nat → List UInt8 → List (List UInt8) × StreamEnd
  | 0, _ => ([], .complete)
  | n + 1, b0 :: b1 :: b2 :: b3 :: rest =>
    let len := (p.assembleLength b0 b1 b2 b3).toNat
    if len ≤ rest.length then
      let (args, ends) := framing p n (rest.drop len)
      (rest.take len :: args, ends)
    else ([], .inBody)
  | _ + 1, _ => ([], .inLength)

theorem framing_append (p : Platform) (n : Nat) {b0 b1 b2 b3 : UInt8} {arg : List UInt8}
    (hlen : (p.assembleLength b0 b1 b2 b3).toNat = arg.length) (rest : List UInt8) :
    framing p (n + 1) (b0 :: b1 :: b2 :: b3 :: (arg ++ rest)) =
      (arg :: (framing p n rest).1, (framing p n rest).2) := by
  rw [framing, hlen, if_pos (by simp), List.drop_left, List.take_left]

theorem framing_of_short (p : Platform) (n : Nat) {bytes : List UInt8} (h : bytes.length < 4) :
    framing p (n + 1) bytes = ([], .inLength) := by
  match bytes, h with
  | [], _ | [_], _ | [_, _], _ | [_, _, _], _ => rfl
  | _ :: _ :: _ :: _ :: _, h =>
    simp only [List.length_cons] at h
    omega

/-- Arguments that arrive are those at the front of the stream. -/
theorem ArgsArrive.framing_eq {p : Platform} {fd fd' : Fd} {args : List (List UInt8)}
    (h : ArgsArrive p fd args fd') (n : Nat) :
    framing p (args.length + n) fd.pending =
      (args ++ (framing p n fd'.pending).1, (framing p n fd'.pending).2) := by
  induction h with
  | nil fd => rw [List.length_nil, Nat.zero_add, List.nil_append]
  | @cons b0 b1 b2 b3 arg rest r results results' args fd' hword hlen hbody hrest ih =>
    rw [List.length_cons, show args.length + 1 + n = args.length + n + 1 from by omega,
      framing_append p _ hlen, ih]
    rfl

/-! ## Schedules that are long enough -/

/-- A body that fits the buffer arrives in as many reads as it has bytes, or fewer. -/
theorem exists_bodyArrives {p : Platform} {len : Nat} (hfits : len ≤ p.bufsiz)
    {results : List ReadResult} (hne : NoError results) (hlong : len ≤ results.length) :
    ∃ results', BodyArrives p len results results' ∧ results.length ≤ results'.length + len := by
  induction results generalizing len with
  | nil =>
    obtain rfl : len = 0 := Nat.le_zero.mp hlong
    exact ⟨[], .done [], Nat.le_refl _⟩
  | cons r results ih =>
    cases len with
    | zero => exact ⟨r :: results, .done _, Nat.le_refl _⟩
    | succ len =>
      have hr := hne r List.mem_cons_self
      have hpos := ReadResult.limit_pos hr len
      have hle := r.limit_le (len + 1)
      rw [List.length_cons] at hlong
      have hfits' : len + 1 - r.limit (len + 1) ≤ p.bufsiz := by omega
      obtain ⟨results', hbody, hleft⟩ := ih hfits'
        (fun r' hr' => hne r' (List.mem_cons_of_mem _ hr')) (by omega)
      refine ⟨results', .read hr (by omega) hbody, ?_⟩
      rw [List.length_cons]
      omega

/-- **Arguments that fit the buffer arrive, or a length word is cut**, unless the stream ends in a
body. Every read but the last takes a byte of the stream. -/
theorem arrive_or_cut {p : Platform} {n : Nat} {pending : List UInt8} {results : List ReadResult}
    (hne : NoError results) (hlong : pending.length < results.length)
    (hends : (framing p n pending).2 ≠ .inBody)
    (hfits : ∀ arg ∈ (framing p n pending).1, arg.length ≤ p.bufsiz) :
    ∃ args fd, ArgsArrive p ⟨pending, results⟩ args fd ∧
      ((args.length = n ∧ (framing p n pending).2 = .complete) ∨ (args.length < n ∧ WordCut fd)) := by
  induction n generalizing pending results with
  | zero => exact ⟨[], _, .nil _, Or.inl ⟨rfl, rfl⟩⟩
  | succ n ih =>
    obtain ⟨r, results, rfl⟩ := List.exists_cons_of_length_pos (Nat.zero_lt_of_lt hlong)
    by_cases hcut : (pending.take (r.limit 4)).length < 4
    · exact ⟨[], _, .nil _, Or.inr ⟨Nat.zero_lt_succ n, r, results, rfl, hcut⟩⟩
    · have hlimit := r.limit_le 4
      rw [List.length_take] at hcut
      match pending, hlong, hends, hfits, hcut with
      | [], _, _, _, hcut | [_], _, _, _, hcut | [_, _], _, _, _, hcut | [_, _, _], _, _, _, hcut =>
        simp only [List.length_cons, List.length_nil] at hcut
        omega
      | b0 :: b1 :: b2 :: b3 :: rest, hlong, hends, hfits, hcut =>
        simp only [List.length_cons] at hlong hcut
        obtain ⟨len, hlen⟩ : ∃ len, (p.assembleLength b0 b1 b2 b3).toNat = len := ⟨_, rfl⟩
        by_cases hwhole : len ≤ rest.length
        · -- the body is all there
          have hrest : rest = rest.take len ++ rest.drop len := (List.take_append_drop len rest).symm
          have htake : (rest.take len).length = len := List.length_take_of_le hwhole
          rw [hrest, framing_append p n (hlen.trans htake.symm)] at hends hfits
          have hne' : NoError results := fun r' hr' => hne r' (List.mem_cons_of_mem _ hr')
          have hfit : len ≤ p.bufsiz := htake ▸ hfits _ List.mem_cons_self
          obtain ⟨results', hbody, hleft⟩ := exists_bodyArrives hfit hne' (by omega)
          have hlong' : (rest.drop len).length < results'.length := by
            rw [List.length_drop]
            omega
          obtain ⟨args, fd, harrive, hor⟩ := ih (fun r' hr' => hne' r' (hbody.suffix.subset hr'))
            hlong' hends fun arg harg => hfits arg (List.mem_cons_of_mem _ harg)
          have hfirst : ArgsArrive p ⟨b0 :: b1 :: b2 :: b3 :: rest, r :: results⟩
              (rest.take len :: args) fd := by
            conv in rest => rw [hrest]
            exact .cons (by omega) (hlen.trans htake.symm) (htake.symm ▸ hbody) harrive
          refine ⟨rest.take len :: args, fd, hfirst, ?_⟩
          rw [hrest, framing_append p n (hlen.trans htake.symm), List.length_cons]
          rcases hor with ⟨hcount, hcomplete⟩ | ⟨hcount, hcut⟩
          · exact Or.inl ⟨by rw [hcount], hcomplete⟩
          · exact Or.inr ⟨Nat.succ_lt_succ hcount, hcut⟩
        · rw [framing, hlen, if_neg hwhole] at hends
          exact absurd rfl hends

/-! ## Complete reads -/

/-- On complete reads, a body arrives only if it fits the buffer. -/
theorem BodyArrives.le_of_full {p : Platform} {len : Nat} {results results' : List ReadResult}
    (h : BodyArrives p len results results') (hfull : ∀ r ∈ results, r = .full) :
    len ≤ p.bufsiz := by
  cases h with
  | done results => exact Nat.zero_le _
  | @read len r results results' hr hfits hrest =>
    rwa [hfull r List.mem_cons_self] at hfits

theorem ArgsArrive.of_full {p : Platform} {fd fd' : Fd} {args : List (List UInt8)}
    (h : ArgsArrive p fd args fd') (hfull : ∀ r ∈ fd.results, r = .full) :
    (∀ arg ∈ args, arg.length ≤ p.bufsiz) ∧ ∀ r ∈ fd'.results, r = .full := by
  induction h with
  | nil fd => exact ⟨by simp, hfull⟩
  | @cons b0 b1 b2 b3 arg rest r results results' args fd' hword hlen hbody hrest ih =>
    have hfull' : ∀ r' ∈ results, r' = .full := fun r' hr' => hfull r' (List.mem_cons_of_mem _ hr')
    obtain ⟨hfits, hleft⟩ := ih fun r' hr' => hfull' r' (hbody.suffix.subset hr')
    exact ⟨List.forall_mem_cons.mpr ⟨hbody.le_of_full hfull', hfits⟩, hleft⟩

/-- A complete read of a length word is cut only by the end of the stream. -/
theorem WordCut.length_lt_of_full {fd : Fd} (h : WordCut fd) (hfull : ∀ r ∈ fd.results, r = .full) :
    fd.pending.length < 4 := by
  obtain ⟨r, results, hresults, hlt⟩ := h
  have hr : r = .full := hfull r (hresults ▸ List.mem_cons_self)
  rw [hr, List.length_take, show ReadResult.limit .full 4 = 4 from rfl] at hlt
  omega

theorem framing_of_arrive {p : Platform} {n : Nat} {fd fd' : Fd} {args : List (List UInt8)}
    (h : ArgsArrive p fd args fd') (hlen : args.length = n) :
    framing p n fd.pending = (args, .complete) := by
  have hframing := h.framing_eq 0
  rwa [Nat.add_zero, hlen, framing, List.append_nil] at hframing

theorem framing_of_cut_full {p : Platform} {n : Nat} {fd fd' : Fd} {args : List (List UInt8)}
    (h : ArgsArrive p fd args fd') (hfull : ∀ r ∈ fd.results, r = .full) (hlt : args.length < n)
    (hcut : WordCut fd') : framing p n fd.pending = (args, .inLength) := by
  obtain ⟨k, hk⟩ := Nat.exists_eq_add_of_lt hlt
  have hframing := h.framing_eq (k + 1)
  rwa [← Nat.add_assoc, ← hk, framing_of_short p k (hcut.length_lt_of_full (h.of_full hfull).2),
    List.append_nil] at hframing

/-- **A call that returns on complete reads** has found no end of the stream in a body. -/
theorem framing_of_ret {p : Platform} {bytes : List UInt8} {results : List ReadResult}
    (hfull : ∀ r ∈ results, r = .full) {v : Option FepControlMessage} {fd : Fd}
    (h : readControlMessage p ⟨bytes, results⟩ = .ret v fd) :
    bytes = [] ∨ ∃ command rest, bytes = FepControlCommand.toByte command :: rest ∧
      (framing p command.nArgs rest).2 ≠ .inBody ∧
      (∀ arg ∈ (framing p command.nArgs rest).1, arg.length ≤ p.bufsiz) ∧
      ((framing p command.nArgs rest).2 = .complete → v ≠ none) := by
  have hne : NoError results := by
    intro r hr
    rw [hfull r hr]
    simp
  rcases readControlMessage_cases hne h with
    ⟨message, rfl, r, rest, results', -, hfd, hlen, harrive⟩ |
    ⟨-, ⟨hnil, -⟩ | ⟨command, r, rest, results', args, fd', -, hfd, hlt, harrive, hcut⟩⟩
  · obtain ⟨rfl, rfl⟩ := Fd.mk.inj hfd
    have hfull' : ∀ r' ∈ results', r' = .full := fun r' hr' => hfull r' (List.mem_cons_of_mem _ hr')
    have hframing := framing_of_arrive harrive hlen
    refine Or.inr ⟨message.command, rest, rfl, ?_⟩
    rw [hframing]
    exact ⟨by simp, (harrive.of_full hfull').1, by simp⟩
  · exact Or.inl hnil
  · obtain ⟨rfl, rfl⟩ := Fd.mk.inj hfd
    have hfull' : ∀ r' ∈ results', r' = .full := fun r' hr' => hfull r' (List.mem_cons_of_mem _ hr')
    have hframing := framing_of_cut_full harrive hfull' hlt hcut
    refine Or.inr ⟨command, rest, rfl, ?_⟩
    rw [hframing]
    exact ⟨by simp, (harrive.of_full hfull').1, by simp⟩

/-! ## The end of the stream -/

/-- The stream starts with a whole message, as it is written to the wire. -/
def CompleteOnWire (bytes : List UInt8) : Prop :=
  ∃ message : WireMessage, message.encode <+: bytes

/-- However the bytes arrive, the call returns once it has made enough reads, and it returns -1 unless
the message is complete. -/
def ReturnsAtEnd (p : Platform) (bytes : List UInt8) : Prop :=
  ∃ reads, ∀ results, NoError results → reads ≤ results.length →
    ∃ v fd, readControlMessage p ⟨bytes, results⟩ = .ret v fd ∧ (¬ CompleteOnWire bytes → v = none)

/-- With the lengths as the reader assembles them, the stream does not end in a body, all bodies fit
the buffer, and a message that looks complete is complete. -/
structure EndsBetween (p : Platform) (n : Nat) (bytes rest : List UInt8) : Prop where
  not_inBody : (framing p n rest).2 ≠ .inBody
  fits : ∀ arg ∈ (framing p n rest).1, arg.length ≤ p.bufsiz
  complete : (framing p n rest).2 = .complete → CompleteOnWire bytes

theorem returnsAtEnd_of_endsBetween {p : Platform} {command : FepControlCommand}
    {bytes : List UInt8}
    (h : EndsBetween p command.nArgs (command.toByte :: bytes) bytes) :
    ReturnsAtEnd p (command.toByte :: bytes) := by
  refine ⟨bytes.length + 2, fun results hne hlong => ?_⟩
  obtain ⟨r, results, rfl⟩ := List.exists_cons_of_length_pos (show 0 < results.length by omega)
  have hr := hne r List.mem_cons_self
  have hne' : NoError results := fun r' hr' => hne r' (List.mem_cons_of_mem _ hr')
  rw [List.length_cons] at hlong
  obtain ⟨args, fd, harrive, hor⟩ := arrive_or_cut hne' (show bytes.length < results.length by omega)
    h.not_inBody h.fits
  rcases hor with ⟨hlen, hcomplete⟩ | ⟨hlt, hcut⟩
  · refine ⟨some ⟨command, args⟩, fd, (readControlMessage_eq_some_iff hne).mpr
      ⟨r, bytes, results, hr, rfl, hlen, harrive⟩, fun hincomplete => ?_⟩
    exact absurd (h.complete hcomplete) hincomplete
  · obtain ⟨fd', hread⟩ := (readControlMessage_eq_none_iff hne).mpr
      (Or.inr ⟨command, r, bytes, results, args, fd, hr, rfl, hlt, harrive, hcut⟩)
    exact ⟨none, fd', hread, fun _ => rfl⟩

/-- **The streams on which the reader returns**, and returns -1 if the message is not complete: there
is no byte, or a command is known and the stream does not end in the body of one of its arguments. -/
theorem returnsAtEnd_iff (p : Platform) (bytes : List UInt8) :
    ReturnsAtEnd p bytes ↔
      bytes = [] ∨ ∃ command rest, bytes = FepControlCommand.toByte command :: rest ∧
        EndsBetween p command.nArgs bytes rest := by
  constructor
  · rintro ⟨reads, hreturns⟩
    -- complete reads show the end of the stream wherever it is
    have hfull : ∀ r ∈ List.replicate reads ReadResult.full, r = .full :=
      fun r hr => List.eq_of_mem_replicate hr
    have hne : NoError (List.replicate reads .full) := by
      intro r hr
      rw [hfull r hr]
      simp
    obtain ⟨v, fd, hread, hnone⟩ := hreturns _ hne (by simp)
    rcases framing_of_ret hfull hread with hnil | ⟨command, rest, hbytes, hbody, hfits, hwhole⟩
    · exact Or.inl hnil
    · refine Or.inr ⟨command, rest, hbytes, hbody, hfits, fun hcomplete => ?_⟩
      by_contra hincomplete
      exact hwhole hcomplete (hnone hincomplete)
  · rintro (rfl | ⟨command, rest, rfl, hends⟩)
    · refine ⟨1, fun results hne hlong => ?_⟩
      have hcut : CutShort p ⟨[], results⟩ := Or.inl ⟨rfl, List.ne_nil_of_length_pos hlong⟩
      obtain ⟨fd, hread⟩ := (readControlMessage_eq_none_iff hne).mpr hcut
      exact ⟨none, fd, hread, fun _ => rfl⟩
    · exact returnsAtEnd_of_endsBetween hends

/-- SEND_DATA with a length of 1, and then nothing. -/
def sendDataCut : List UInt8 := [4, 1, 0, 0, 0]

theorem not_completeOnWire_sendDataCut : ¬ CompleteOnWire sendDataCut := by
  rintro ⟨message, t, ht⟩
  obtain ⟨⟨command, args⟩, hargs, hlt⟩ := message
  obtain ⟨hcommand, hrest⟩ := List.cons.inj ht
  obtain rfl : command = .sendData := toByte_inj hcommand
  obtain ⟨arg, rfl⟩ := List.length_eq_one_iff.mp hargs
  have hrest : [arg].flatMap encodeArg ++ t = [1, 0, 0, 0] := hrest
  rw [List.flatMap_singleton] at hrest
  have hlen := congrArg List.length hrest
  simp only [encodeArg, List.length_append, List.length_cons, List.length_nil] at hlen
  -- the stream ends behind the length word, which must then be that of no bytes
  obtain rfl : arg = [] := List.length_eq_zero_iff.mp (by omega)
  exact absurd (List.cons.inj hrest).1 (by decide)

/-- The reader asks for the one byte for ever. -/
theorem not_returnsAtEnd_sendDataCut :
    ¬ CompleteOnWire sendDataCut ∧ ∀ reads v fd, readControlMessage .x86_64
      ⟨sendDataCut, List.replicate reads .full⟩ ≠ .ret v fd := by
  refine ⟨not_completeOnWire_sendDataCut, fun reads v fd h => ?_⟩
  rcases framing_of_ret (fun r hr => List.eq_of_mem_replicate hr) h with
    hnil | ⟨command, rest, hbytes, hbody, -⟩
  · exact absurd hnil (by decide)
  · obtain ⟨hcommand, rfl⟩ := List.cons.inj hbytes
    obtain rfl : command = .sendData := toByte_inj hcommand.symm
    exact hbody (by decide)

end LibFep
