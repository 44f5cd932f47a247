import LibFep.Control.Wire

/-!
# LibFep — the round trip of control messages

What `_fep_read_control_message` makes of the bytes `_fep_write_control_message` emits.

* **`lengthReadFor_eq_iff`** — which length words the reader reassembles. It shifts plain `char`
  values, so where `char` is signed a byte of 128 or more smears its sign over the bytes above it;
  and it swaps a word that is already put together from its least significant byte.
* **`Platform.LengthReadable`** — such a length that also fits the stack buffer. The body of an
  argument is read into `buf[BUFSIZ]` with its announced length as the count.
* **`readControlMessage_of_readable`**, **`lengthReadable_of_readControlMessage`** — with complete
  reads, a message is read back exactly when its argument lengths are readable: one lemma for each
  direction and each of the loops (body, arguments, messages).
* **`roundTrips_iff_lengthReadable`** — the same for a list of messages on one stream.
-/

namespace LibFep

open Lib

/-! ## The length word -/

/-- Byte `i` of a length, counted from the least significant. -/
def lengthByte (n i : Nat) : Nat := n / 256 ^ i % 256

/-- A length that the reader reassembles and that fits its buffer. -/
structure Platform.LengthReadable (p : Platform) (n : Nat) : Prop where
  fits : n ≤ p.bufsiz
  unsigned : p.charSigned = true → ∀ i < 3, lengthByte n i < 128
  palindrome : p.wordsBigEndian = true →
    lengthByte n 0 = lengthByte n 3 ∧ lengthByte n 1 = lengthByte n 2

/-- Where numbers can be read, short arguments can. -/
theorem Platform.LengthReadable.of_lt {p : Platform} (h : p.LengthReadable 4) {n : Nat}
    (hn : n < 128) : p.LengthReadable n where
  fits := by
    have hfits := p.bufsiz_ge
    omega
  unsigned _ i _ := by
    have hle := Nat.div_le_self n (256 ^ i)
    exact Nat.lt_of_le_of_lt (Nat.mod_le _ _) (by omega)
  palindrome hbig := absurd (h.palindrome hbig).1 (by decide)

theorem toNat_leByte_ofNat {n : Nat} (hn : n < 2 ^ 32) (i : Nat) :
    (leByte (BitVec.ofNat 32 n) i).toNat = lengthByte n i := by
  rw [toNat_leByte, BitVec.toNat_ofNat, Nat.mod_eq_of_lt hn, lengthByte]

theorem msb_eq_false_iff (b : UInt8) : b.toBitVec.msb = false ↔ b.toNat < 128 := by
  rw [BitVec.msb_eq_decide]
  simp

/-- The sign bits of the top byte are shifted out. -/
theorem signExtend_shiftLeft_24 (b : UInt8) :
    b.toBitVec.signExtend 32 <<< 24 = b.toBitVec.setWidth 32 <<< 24 := by
  apply BitVec.eq_of_getLsbD_eq
  intro i hi
  simp only [BitVec.getLsbD_shiftLeft, BitVec.getLsbD_signExtend, BitVec.getLsbD_setWidth]
  by_cases h : i < 24
  · simp [h]
  · simp [show i - 24 < 32 by omega, show i - 24 < 8 by omega]

theorem assembleChars_unsigned (p : Platform) (b0 b1 b2 b3 : UInt8) (h : p.charSigned = false) :
    p.assembleChars b0 b1 b2 b3 = ofLeBytes b0 b1 b2 b3 := by
  simp [Platform.assembleChars, Platform.charToInt, h, ofLeBytes]

theorem assembleChars_signed (p : Platform) (b0 b1 b2 b3 : UInt8) (h : p.charSigned = true)
    (h0 : b0.toNat < 128) (h1 : b1.toNat < 128) (h2 : b2.toNat < 128) :
    p.assembleChars b0 b1 b2 b3 = ofLeBytes b0 b1 b2 b3 := by
  have hext (b : UInt8) (hb : b.toNat < 128) :
      b.toBitVec.signExtend 32 = b.toBitVec.setWidth 32 :=
    BitVec.signExtend_eq_setWidth_of_msb_false ((msb_eq_false_iff b).mpr hb)
  simp only [Platform.assembleChars, Platform.charToInt, h, if_true, ofLeBytes,
    signExtend_shiftLeft_24, hext b0 h0, hext b1 h1, hext b2 h2]

/-- Bit 31 of the assembled word is the sign of any of the four bytes. -/
theorem getLsbD_31_assembleChars_signed (p : Platform) (b0 b1 b2 b3 : UInt8)
    (h : p.charSigned = true) :
    (p.assembleChars b0 b1 b2 b3).getLsbD 31 =
      (b3.toBitVec.msb || b2.toBitVec.msb || b1.toBitVec.msb || b0.toBitVec.msb) := by
  have hbit (b : UInt8) (j : Nat) (hj : 7 ≤ j) (hj' : j < 32) :
      (b.toBitVec.signExtend 32).getLsbD j = b.toBitVec.msb := by
    rw [BitVec.getLsbD_signExtend]
    by_cases h8 : j < 8
    · have : j = 7 := by omega
      subst this
      simp [BitVec.msb_eq_getLsbD_last]
    · simp [h8, hj']
  simp only [Platform.assembleChars, Platform.charToInt, h, if_true, BitVec.getLsbD_or,
    BitVec.getLsbD_shiftLeft, Nat.reduceSub, Nat.reduceLT, decide_true, decide_false,
    Bool.not_false, Bool.true_and, hbit b0 31 (by omega) (by omega),
    hbit b1 23 (by omega) (by omega), hbit b2 15 (by omega) (by omega),
    hbit b3 7 (by omega) (by omega)]

/-- The low byte of the assembled word is the first byte alone. -/
theorem getLsbD_7_assembleChars (p : Platform) (b0 b1 b2 b3 : UInt8) :
    (p.assembleChars b0 b1 b2 b3).getLsbD 7 = b0.toBitVec.msb := by
  have hlow : (p.charToInt b0).getLsbD 7 = b0.toBitVec.msb := by
    unfold Platform.charToInt
    split <;> simp only [BitVec.getLsbD_signExtend, BitVec.getLsbD_setWidth] <;>
      simp [BitVec.msb_eq_getLsbD_last]
  simp only [Platform.assembleChars, BitVec.getLsbD_or, BitVec.getLsbD_shiftLeft, Nat.reduceLT,
    decide_true, Bool.not_true, Bool.and_false, Bool.false_and, Bool.false_or, hlow]

/-- The length word of `n`, as the reader assembles it from the bytes the writer sends. -/
def Platform.lengthReadFor (p : Platform) (n : Nat) : Nat :=
  let w := BitVec.ofNat 32 n
  (p.assembleLength (leByte w 0) (leByte w 1) (leByte w 2) (leByte w 3)).toNat

/-- On a platform with signed `char`, a length below `2 ^ 31` that is read back has no byte of 128
or more. On a big-endian one the first byte cannot have its sign set either, because it ends up
where the last one was. -/
theorem lengthByte_lt_of_lengthReadFor_eq (p : Platform) {n : Nat} (hn : n < 2 ^ 31)
    (hsigned : p.charSigned = true) (h : p.lengthReadFor n = n) :
    ∀ i < 3, lengthByte n i < 128 := by
  set w := BitVec.ofNat 32 n with hw
  have hbytes (i : Nat) : (leByte w i).toNat = lengthByte n i := toNat_leByte_ofNat (by omega) i
  -- the top byte has its sign clear, since the length is below 2 ^ 31
  have hmsb3 : (leByte w 3).toBitVec.msb = false := by
    rw [msb_eq_false_iff, hbytes, lengthByte]
    omega
  have hread : p.assembleLength (leByte w 0) (leByte w 1) (leByte w 2) (leByte w 3) = w := by
    apply BitVec.eq_of_toNat_eq
    rw [hw, BitVec.toNat_ofNat, Nat.mod_eq_of_lt (by omega)]
    exact h
  have h31 : (p.assembleChars (leByte w 0) (leByte w 1) (leByte w 2) (leByte w 3)).getLsbD 31
      = false := by
    unfold Platform.assembleLength at hread
    cases hbe : p.wordsBigEndian with
    | false =>
      simp only [hbe, Bool.false_eq_true, if_false] at hread
      rw [hread, ← ofLeBytes_leByte w, getLsbD_ofLeBytes]
      simpa [BitVec.msb_eq_getLsbD_last] using hmsb3
    | true =>
      simp only [hbe, if_true] at hread
      -- the swap undone, the first byte takes the place of the last one
      have hraw : p.assembleChars (leByte w 0) (leByte w 1) (leByte w 2) (leByte w 3)
          = bswap32 w := by
        rw [← hread, bswap32_bswap32, hread]
      have hmsb0 : (leByte w 0).toBitVec.msb = false := by
        rw [← getLsbD_7_assembleChars p (leByte w 0) (leByte w 1) (leByte w 2) (leByte w 3), hraw,
          bswap32, getLsbD_ofLeBytes]
        simpa [BitVec.msb_eq_getLsbD_last] using hmsb3
      rw [hraw, bswap32, getLsbD_ofLeBytes]
      simpa [BitVec.msb_eq_getLsbD_last] using hmsb0
  -- bit 31 is clear only if no byte has its sign set
  rw [getLsbD_31_assembleChars_signed p _ _ _ _ hsigned] at h31
  simp only [Bool.or_eq_false_iff, msb_eq_false_iff, hbytes] at h31
  obtain ⟨⟨⟨-, h2⟩, h1⟩, h0⟩ := h31
  intro i hi
  rcases (by omega : i = 0 ∨ i = 1 ∨ i = 2) with rfl | rfl | rfl
  · exact h0
  · exact h1
  · exact h2

/-- **Which lengths the reader gets right.** A length below `2 ^ 31` is read back exactly when, on
a platform with signed `char`, its bytes are below 128 and, on a big-endian platform, it is a
palindrome of bytes. -/
theorem lengthReadFor_eq_iff (p : Platform) {n : Nat} (hn : n < 2 ^ 31) :
    p.lengthReadFor n = n ↔
      (p.charSigned = true → ∀ i < 3, lengthByte n i < 128) ∧
      (p.wordsBigEndian = true →
        lengthByte n 0 = lengthByte n 3 ∧ lengthByte n 1 = lengthByte n 2) := by
  set w := BitVec.ofNat 32 n with hw
  have hbytes (i : Nat) : (leByte w i).toNat = lengthByte n i := toNat_leByte_ofNat (by omega) i
  have hwn : w.toNat = n := by rw [hw, BitVec.toNat_ofNat, Nat.mod_eq_of_lt (by omega)]
  -- without sign bits the assembled word is the length itself
  have hraw (h : p.charSigned = true → ∀ i < 3, lengthByte n i < 128) :
      p.assembleChars (leByte w 0) (leByte w 1) (leByte w 2) (leByte w 3) = w := by
    cases hs : p.charSigned with
    | false => rw [assembleChars_unsigned p _ _ _ _ hs, ofLeBytes_leByte]
    | true =>
      have hlt (i : Nat) (hi : i < 3) : (leByte w i).toNat < 128 := by
        rw [hbytes]
        exact h hs i hi
      rw [assembleChars_signed p _ _ _ _ hs (hlt 0 (by omega)) (hlt 1 (by omega))
        (hlt 2 (by omega)), ofLeBytes_leByte]
  have hpal : bswap32 w = w ↔
      lengthByte n 0 = lengthByte n 3 ∧ lengthByte n 1 = lengthByte n 2 := by
    rw [bswap32_eq_self_iff, ← UInt8.toNat_inj, ← UInt8.toNat_inj, hbytes, hbytes, hbytes, hbytes]
  have hcond (h : p.charSigned = true → ∀ i < 3, lengthByte n i < 128) :
      p.lengthReadFor n = n ↔ (p.wordsBigEndian = true →
        lengthByte n 0 = lengthByte n 3 ∧ lengthByte n 1 = lengthByte n 2) := by
    show (p.assembleLength (leByte w 0) (leByte w 1) (leByte w 2) (leByte w 3)).toNat = n ↔ _
    rw [Platform.assembleLength, hraw h, ← hpal]
    cases p.wordsBigEndian with
    | false => simp [hwn]
    | true =>
      simp only [if_true, forall_const]
      rw [← BitVec.toNat_inj, hwn]
  constructor
  · intro h
    have hlt (hs : p.charSigned = true) := lengthByte_lt_of_lengthReadFor_eq p hn hs h
    exact ⟨hlt, (hcond hlt).mp h⟩
  · rintro ⟨hlt, hbe⟩
    exact (hcond hlt).mpr hbe

example : Platform.aarch64.lengthReadFor 128 = 128 := by decide

example : Platform.x86_64.lengthReadFor 128 = 2 ^ 32 - 128 := by decide

/-! ## What any schedule of reads preserves

Whatever the `read` calls return, an argument that is read has the length announced for it, and
the bytes taken off the stream are the bytes of the argument. -/

theorem readArgBody_ret (p : Platform) (results : List ReadResult) (pending : List UInt8)
    (len : Nat) (arg : List UInt8) {r : List UInt8} {fd : Fd}
    (h : readArgBody p results pending len arg = .ret (some r) fd) :
    r.length = arg.length + len ∧ r ++ fd.pending = arg ++ pending ∧ fd.results <:+ results := by
  fun_induction readArgBody p results pending len arg with
  | case1 results pending arg =>
    simp only [Outcome.ret.injEq, Option.some.injEq] at h
    obtain ⟨rfl, rfl⟩ := h
    exact ⟨rfl, rfl, List.suffix_refl _⟩
  | case2 => simp at h
  | case3 => simp at h
  | case4 => simp at h
  -- a round that takes `bytes` off the stream
  | case5 result results pending len arg hne bytes hfits ih =>
    obtain ⟨hlen, hbytes, hres⟩ := ih h
    have htake : bytes.length ≤ len + 1 := by
      have := result.limit_le (len + 1)
      simp only [bytes, List.length_take]
      omega
    refine ⟨?_, ?_, hres.trans (List.suffix_cons _ _)⟩
    · rw [hlen, List.length_append]
      omega
    · rw [hbytes, List.append_assoc, List.take_append_drop]

theorem readArgBody_full (p : Platform) (results : List ReadResult) (arg rest : List UInt8)
    (hfits : arg.length ≤ p.bufsiz) (hne : arg ≠ []) :
    readArgBody p (.full :: results) (arg ++ rest) arg.length [] =
      .ret (some arg) ⟨rest, results⟩ := by
  obtain ⟨len, hlen⟩ : ∃ len, arg.length = len + 1 :=
    Nat.exists_eq_succ_of_ne_zero (by simpa using hne)
  have htake : (arg ++ rest).take (len + 1) = arg := by rw [← hlen, List.take_left]
  have hdrop : (arg ++ rest).drop (len + 1) = rest := by rw [← hlen, List.drop_left]
  rw [hlen, readArgBody]
  simp only [ReadResult.limit, htake, hdrop, hlen, Nat.sub_self, List.nil_append]
  · rw [if_neg (by omega), readArgBody]
  · simp

/-- A complete read of a body that does not fit the buffer stores past its end. -/
theorem readArgBody_overrun (p : Platform) (results : List ReadResult) (arg rest : List UInt8)
    (hfits : p.bufsiz < arg.length) :
    readArgBody p (.full :: results) (arg ++ rest) arg.length [] = .overrun := by
  obtain ⟨len, hlen⟩ : ∃ len, arg.length = len + 1 :=
    Nat.exists_eq_succ_of_ne_zero (by omega)
  have htake : (arg ++ rest).take (len + 1) = arg := by rw [← hlen, List.take_left]
  rw [hlen, readArgBody]
  simp only [ReadResult.limit, htake]
  · rw [if_pos hfits]
  · simp

/-! ## An encoded argument

The first read takes the length word off the stream; the body loop then runs for the length that
the platform makes of it. -/

theorem readArg_encodeArg (p : Platform) (results : List ReadResult) (arg rest : List UInt8) :
    readArg p ⟨encodeArg arg ++ rest, .full :: results⟩ =
      readArgBody p results (arg ++ rest) (p.lengthReadFor arg.length) [] := rfl

def argReads (arg : List UInt8) : Nat := if arg = [] then 1 else 2

theorem readArg_of_readable (p : Platform) (results : List ReadResult) (arg rest : List UInt8)
    (h : p.LengthReadable arg.length) :
    readArg p ⟨encodeArg arg ++ rest, List.replicate (argReads arg) .full ++ results⟩ =
      .ret (some arg) ⟨rest, results⟩ := by
  have hread : p.lengthReadFor arg.length = arg.length :=
    (lengthReadFor_eq_iff p (Nat.lt_of_le_of_lt h.fits p.bufsiz_lt)).mpr ⟨h.unsigned, h.palindrome⟩
  by_cases hne : arg = []
  · subst hne
    rw [show List.replicate (argReads []) ReadResult.full ++ results = .full :: results from rfl,
      readArg_encodeArg, hread]
    simp [readArgBody]
  · rw [show List.replicate (argReads arg) ReadResult.full ++ results
        = .full :: .full :: results from by simp [argReads, hne, List.replicate],
      readArg_encodeArg, hread, readArgBody_full p results arg rest h.fits hne]

theorem lengthReadable_of_readArg (p : Platform) {results : List ReadResult}
    {arg rest : List UInt8} {fd : Fd} (hfull : ∀ r ∈ results, r = .full)
    (h : readArg p ⟨encodeArg arg ++ rest, results⟩ = .ret (some arg) fd) :
    p.LengthReadable arg.length ∧ fd.pending = rest ∧ fd.results <:+ results := by
  match results, hfull, h with
  | .full :: results, hfull, h =>
    rw [readArg_encodeArg] at h
    obtain ⟨hlen, hbytes, hres⟩ := readArgBody_ret p _ _ _ _ h
    have hread : p.lengthReadFor arg.length = arg.length := by
      simpa using hlen.symm
    have hfits : arg.length ≤ p.bufsiz := by
      by_contra hlt
      rw [hread] at h
      -- the body loop runs at least once, and the first round overruns the buffer
      match results, hfull, h with
      | [], _, h =>
        obtain ⟨len, hlen⟩ : ∃ len, arg.length = len + 1 :=
          Nat.exists_eq_succ_of_ne_zero (by omega)
        rw [hlen] at h
        simp [readArgBody] at h
      | .full :: results, _, h =>
        rw [readArgBody_overrun p results arg rest (by omega)] at h
        exact absurd h (by simp)
      | .error :: _, hfull, _ => exact absurd (hfull .error (by simp)) (by simp)
      | .short k :: _, hfull, _ => exact absurd (hfull (.short k) (by simp)) (by simp)
    have hcond := (lengthReadFor_eq_iff p (Nat.lt_of_le_of_lt hfits p.bufsiz_lt)).mp hread
    refine ⟨⟨hfits, hcond.1, hcond.2⟩, ?_, hres.trans (List.suffix_cons _ _)⟩
    simpa using hbytes
  | .error :: _, hfull, _ => exact absurd (hfull .error (by simp)) (by simp)
  | .short k :: _, hfull, _ => exact absurd (hfull (.short k) (by simp)) (by simp)
  | [], _, h => simp [readArg, Fd.read, Outcome.bind] at h

/-! ## All arguments of a message -/

theorem readArgs_of_readable (p : Platform) (results : List ReadResult)
    (args : List (List UInt8)) (rest : List UInt8)
    (h : ∀ arg ∈ args, p.LengthReadable arg.length) :
    readArgs p args.length ⟨args.flatMap encodeArg ++ rest,
        List.replicate (args.map argReads).sum .full ++ results⟩ =
      .ret (some args) ⟨rest, results⟩ := by
  induction args with
  | nil => rfl
  | cons arg args ih =>
    have hfirst := readArg_of_readable p
      (List.replicate (args.map argReads).sum .full ++ results) arg
      (args.flatMap encodeArg ++ rest) (h arg (by simp))
    rw [List.map_cons, List.sum_cons, ← List.replicate_append_replicate, List.append_assoc,
      List.flatMap_cons, List.append_assoc, List.length_cons, readArgs, hfirst]
    simp only [Outcome.bind]
    rw [ih fun a ha => h a (by simp [ha])]
    rfl

theorem lengthReadable_of_readArgs (p : Platform) {args : List (List UInt8)}
    {results : List ReadResult} {rest : List UInt8} {fd : Fd} (hfull : ∀ r ∈ results, r = .full)
    (h : readArgs p args.length ⟨args.flatMap encodeArg ++ rest, results⟩ =
      .ret (some args) fd) :
    (∀ arg ∈ args, p.LengthReadable arg.length) ∧ fd.pending = rest ∧
      fd.results <:+ results := by
  induction args generalizing results fd with
  | nil =>
    simp only [List.length_nil, readArgs, List.flatMap_nil, List.nil_append,
      Outcome.ret.injEq] at h
    obtain ⟨-, rfl⟩ := h
    exact ⟨by simp, rfl, List.suffix_refl _⟩
  | cons arg args ih =>
    rw [List.length_cons, readArgs, List.flatMap_cons, List.append_assoc] at h
    -- the first argument is read, and it is `arg`
    match hfirst : readArg p ⟨encodeArg arg ++ (args.flatMap encodeArg ++ rest), results⟩, h with
    | .ret (some arg') fd', h =>
      simp only [Outcome.bind] at h
      match hrest : readArgs p args.length fd', h with
      | .ret (some args') fd'', h =>
        simp only [Option.map_some, Outcome.ret.injEq, Option.some.injEq, List.cons.injEq] at h
        obtain ⟨⟨rfl, rfl⟩, rfl⟩ := h
        obtain ⟨hread, hpending, hres⟩ := lengthReadable_of_readArg p hfull hfirst
        obtain ⟨pending, results'⟩ := fd'
        simp only at hpending hres
        subst hpending
        obtain ⟨hreads, hpending', hres'⟩ :=
          ih (fun r hr => hfull r (hres.subset hr)) hrest
        refine ⟨?_, hpending', hres'.trans hres⟩
        intro a ha
        rcases List.mem_cons.mp ha with rfl | ha
        · exact hread
        · exact hreads a ha

/-! ## One message -/

def FepControlMessage.reads (message : FepControlMessage) : Nat :=
  1 + (message.args.map argReads).sum

theorem readControlMessage_encode (p : Platform) (results : List ReadResult)
    (message : FepControlMessage) (rest : List UInt8) :
    readControlMessage p ⟨message.encode ++ rest, .full :: results⟩ =
      (readArgs p message.command.nArgs ⟨message.args.flatMap encodeArg ++ rest, results⟩).bind
        fun args fd => .ret (args.map (⟨message.command, ·⟩)) fd := by
  simp [readControlMessage, Fd.read, Outcome.bind, FepControlMessage.encode, ReadResult.limit,
    controlCommandGetNArgs_toByte]

/-- **With complete reads, a message of readable argument lengths is read back** and the stream is
left at the byte after it. -/
theorem readControlMessage_of_readable (p : Platform) (results : List ReadResult)
    (message : WireMessage) (rest : List UInt8)
    (h : ∀ arg ∈ message.args, p.LengthReadable arg.length) :
    readControlMessage p ⟨message.encode ++ rest,
        List.replicate message.reads .full ++ results⟩ =
      .ret (some message.toFepControlMessage) ⟨rest, results⟩ := by
  have hargs := readArgs_of_readable p results message.args rest h
  rw [FepControlMessage.reads, ← List.replicate_append_replicate, List.replicate_one,
    List.singleton_append, List.cons_append, readControlMessage_encode, ← message.n_args_eq, hargs]
  rfl

/-- **A message that complete reads give back had readable argument lengths**, and the stream is
left at the byte after it. -/
theorem lengthReadable_of_readControlMessage (p : Platform) {message : WireMessage}
    {results : List ReadResult} {rest : List UInt8} {fd : Fd} (hfull : ∀ r ∈ results, r = .full)
    (h : readControlMessage p ⟨message.encode ++ rest, results⟩ =
      .ret (some message.toFepControlMessage) fd) :
    (∀ arg ∈ message.args, p.LengthReadable arg.length) ∧ fd.pending = rest ∧
      fd.results <:+ results := by
  match results, hfull, h with
  | [], _, h => simp [readControlMessage, Fd.read, Outcome.bind] at h
  | .error :: _, hfull, _ => exact absurd (hfull .error (by simp)) (by simp)
  | .short k :: _, hfull, _ => exact absurd (hfull (.short k) (by simp)) (by simp)
  | .full :: results, hfull, h =>
    rw [readControlMessage_encode, ← message.n_args_eq] at h
    match hargs : readArgs p message.args.length
        ⟨message.args.flatMap encodeArg ++ rest, results⟩, h with
    | .ret (some args) fd', h =>
      simp only [Outcome.bind, Option.map_some, Outcome.ret.injEq, Option.some.injEq] at h
      obtain ⟨hmessage, rfl⟩ := h
      have hsame : args = message.args := by rw [← hmessage]
      -- the command is the one sent, so that the arguments are
      rw [hsame] at hargs
      obtain ⟨hread, hpending, hres⟩ := lengthReadable_of_readArgs p
        (fun r hr => hfull r (List.mem_cons_of_mem _ hr)) hargs
      exact ⟨hread, hpending, hres.trans (List.suffix_cons _ _)⟩

/-! ## A stream of messages -/

/-- `n` calls of `_fep_read_control_message` one after the other: the messages of the calls, or
`none` if one of them returns -1. -/
def readControlMessages (p : Platform) : Nat → Fd → Outcome (Option (List FepControlMessage))
  | 0, fd => .ret (some []) fd
  | n + 1, fd =>
    (readControlMessage p fd).bind fun message fd =>
      match message with
      | none => .ret none fd
      | some message =>
        (readControlMessages p n fd).bind fun messages fd =>
          .ret (messages.map (message :: ·)) fd

/-- Calling the reader once for each message, with as many complete reads as it takes, gives back
the messages and leaves the stream at whatever follows them. -/
def RoundTrips (p : Platform) (messages : List FepControlMessage) : Prop :=
  ∀ rest, ∃ reads results, readControlMessages p messages.length
      ⟨wire p messages ++ rest, List.replicate reads .full⟩ =
    .ret (some messages) ⟨rest, results⟩

def Readable (p : Platform) (messages : List FepControlMessage) : Prop :=
  ∀ message ∈ messages, ∀ arg ∈ message.args, p.LengthReadable arg.length

/-- On a little-endian machine numbers can be read. -/
theorem lengthReadable_four {p : Platform} (h : p.wordsBigEndian = false) : p.LengthReadable 4 where
  fits := by
    have hfits := p.bufsiz_ge
    omega
  unsigned _ i _ := by
    have hle := Nat.div_le_self 4 (256 ^ i)
    exact Nat.lt_of_le_of_lt (Nat.mod_le _ _) (by omega)
  palindrome hbig := absurd (h.symm.trans hbig) (by decide)

theorem readable_of_short {p : Platform} (hp : p.wordsBigEndian = false)
    {messages : List FepControlMessage}
    (h : ∀ message ∈ messages, ∀ arg ∈ message.args, arg.length < 128) : Readable p messages :=
  fun message hmessage arg harg => (lengthReadable_four hp).of_lt (h message hmessage arg harg)

theorem roundTrips_of_readable (p : Platform) (messages : List WireMessage)
    (h : Readable p (messages.map (·.toFepControlMessage))) :
    RoundTrips p (messages.map (·.toFepControlMessage)) := by
  intro rest
  refine ⟨(messages.map (·.reads)).sum, [], ?_⟩
  induction messages with
  | nil => rfl
  | cons message messages ih =>
    -- the reads of this message, then those of the rest
    have hfirst := readControlMessage_of_readable p
      (List.replicate (messages.map (·.reads)).sum .full) message
      (wire p (messages.map (·.toFepControlMessage)) ++ rest)
      (h message.toFepControlMessage (by simp))
    rw [List.map_cons, List.length_cons, readControlMessages, wire_cons, List.append_assoc,
      List.map_cons, List.sum_cons, ← List.replicate_append_replicate, hfirst]
    simp only [Outcome.bind]
    rw [ih fun m hm => h m (by simp [List.mem_map.mp hm])]
    rfl

theorem readable_of_readControlMessages (p : Platform) {messages : List WireMessage}
    {results : List ReadResult} {rest : List UInt8} {fd : Fd} (hfull : ∀ r ∈ results, r = .full)
    (h : readControlMessages p messages.length
      ⟨wire p (messages.map (·.toFepControlMessage)) ++ rest, results⟩ =
        .ret (some (messages.map (·.toFepControlMessage))) fd) :
    Readable p (messages.map (·.toFepControlMessage)) := by
  induction messages generalizing results fd with
  | nil => simp [Readable]
  | cons message messages ih =>
    rw [List.length_cons, readControlMessages, List.map_cons, wire_cons, List.append_assoc] at h
    match hfirst : readControlMessage p ⟨message.encode ++
        (wire p (messages.map (·.toFepControlMessage)) ++ rest), results⟩, h with
    | .ret (some message') fd', h =>
      simp only [Outcome.bind] at h
      match hrest : readControlMessages p messages.length fd', h with
      | .ret (some messages') fd'', h =>
        simp only [Option.map_some, Outcome.ret.injEq, Option.some.injEq, List.cons.injEq] at h
        obtain ⟨⟨rfl, rfl⟩, rfl⟩ := h
        obtain ⟨hread, hpending, hres⟩ := lengthReadable_of_readControlMessage p hfull hfirst
        obtain ⟨pending, results'⟩ := fd'
        simp only at hpending hres
        subst hpending
        have hreads := ih (fun r hr => hfull r (hres.subset hr)) hrest
        intro m hm
        rcases List.mem_cons.mp hm with rfl | hm
        · exact hread
        · exact hreads m hm

theorem readable_of_roundTrips (p : Platform) (messages : List WireMessage)
    (h : RoundTrips p (messages.map (·.toFepControlMessage))) :
    Readable p (messages.map (·.toFepControlMessage)) := by
  obtain ⟨reads, results, hread⟩ := h []
  rw [List.length_map] at hread
  exact readable_of_readControlMessages p (fun r hr => List.eq_of_mem_replicate hr) hread

/-- **Messages survive the stream exactly when their argument lengths are readable.** -/
theorem roundTrips_iff_lengthReadable (p : Platform) (messages : List WireMessage) :
    RoundTrips p (messages.map (·.toFepControlMessage)) ↔
      ∀ message ∈ messages, ∀ arg ∈ message.args, p.LengthReadable arg.length := by
  constructor
  · intro h message hm
    exact readable_of_roundTrips p messages h _ (List.mem_map_of_mem hm)
  · intro h
    apply roundTrips_of_readable
    intro m hm
    obtain ⟨message, hmem, rfl⟩ := List.mem_map.mp hm
    exact h message hmem

def sendData128 : WireMessage where
  command := .sendData
  args := [List.replicate 128 0]
  n_args_eq := rfl
  len_lt := by simp

/-- A length of 128 is not read back where plain `char` is signed: the reader takes it for
`2 ^ 32 - 128`. -/
theorem not_roundTrips_sendData128 :
    ¬ RoundTrips Platform.x86_64 [sendData128.toFepControlMessage] := by
  intro h
  have hread := readable_of_roundTrips Platform.x86_64 [sendData128] h
  have hlen := hread sendData128.toFepControlMessage (by simp) (List.replicate 128 0)
    (by simp [sendData128])
  have hbyte := hlen.unsigned rfl 0 (by omega)
  simp [lengthByte] at hbyte

end LibFep
