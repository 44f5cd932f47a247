import LibFep.Control.RoundTrip

/-!
# LibFep — the byte order of the host

A build without `WORDS_BIGENDIAN` and one with it on the two ends of a socket. The bytes on the wire
are the same. Two of the readers are not: `_fep_read_control_message` swaps a length that it has put
together by shifts, and `_fep_control_message_read_attribute_arg` swaps a `uint8_t`.

* **`writeControlMessage_congr`**, **`controlMessageReadUint32Arg_congr`** — what does not depend on the
  host.
* **`readAttributeField_littleEndian`**, **`readAttributeField_bigEndian`** — the low byte of a field,
  and 0.
* **`bytesIndependent`** — so the bytes of a message never do, and a number that one build stores is read
  by the other.
* **`hostIndependent_iff`** — the messages for which nothing depends on it.
-/

namespace LibFep

open Lib

/-! ## The writer and the reader of a number -/

theorem Platform.wireWord_congr (p q : Platform) (w : BitVec 32) : p.wireWord w = q.wireWord w := by
  rw [p.wireWord_eq, q.wireWord_eq]

theorem writeArgs_congr (p q : Platform) (results : List WriteResult) (args : List (List UInt8)) :
    writeArgs p results args = writeArgs q results args := by
  have hfirst (results : List WriteResult) (arg : List UInt8) :
      writeArg p results arg = writeArg q results arg := by
    rw [writeArg, writeArg, p.wireWord_congr q]
  induction args generalizing results with
  | nil => rfl
  | cons arg args ih => rw [writeArgs, writeArgs, hfirst, ih]

/-- **The bytes on the wire do not depend on the host**, whatever the socket accepts of them. -/
theorem writeControlMessage_congr (p q : Platform) (results : List WriteResult)
    (message : FepControlMessage) :
    writeControlMessage p results message = writeControlMessage q results message := by
  have hargs (results : List WriteResult) :
      writeArgs p results message.args = writeArgs q results message.args :=
    writeArgs_congr p q results message.args
  simp only [writeControlMessage, hargs]

/-- A number is put together from its bytes in wire order, swapped on the way or not. -/
theorem Platform.uint32Of_eq (p : Platform) (arg : List UInt8) :
    p.uint32Of arg =
      ofLeBytes (arg.getD 0 0) (arg.getD 1 0) (arg.getD 2 0) (arg.getD 3 0) := by
  unfold Platform.uint32Of wordAt loadWord
  cases p.wordsBigEndian with
  | false => rfl
  | true =>
    obtain ⟨h0, h1, h2, h3⟩ :=
      leByte_ofLeBytes (arg.getD 3 0) (arg.getD 2 0) (arg.getD 1 0) (arg.getD 0 0)
    simp only [if_true, Nat.mul_zero, Nat.zero_add, bswap32, h0, h1, h2, h3]

/-- The number read is that of the argument, if the argument is one of four bytes. -/
theorem controlMessageReadUint32Arg_eq_map (p : Platform) (message : FepControlMessage)
    (index : Nat) :
    controlMessageReadUint32Arg p message index =
      (controlMessageArg message index 4).map (·.map p.uint32Of) := by
  unfold controlMessageReadUint32Arg
  match controlMessageArg message index 4 with
  | .error _ => rfl
  | .ok none => rfl
  | .ok (some arg) =>
    show Except.ok (some _) = Except.ok (some _)
    unfold Platform.uint32Of
    split <;> rfl

theorem controlMessageReadUint32Arg_congr (p q : Platform) (message : FepControlMessage)
    (index : Nat) :
    controlMessageReadUint32Arg p message index = controlMessageReadUint32Arg q message index := by
  have hnumber : p.uint32Of = q.uint32Of := by
    funext arg
    rw [p.uint32Of_eq, q.uint32Of_eq]
  rw [controlMessageReadUint32Arg_eq_map, controlMessageReadUint32Arg_eq_map, hnumber]

/-- An argument that was stored is there. -/
theorem getElem?_of_writeArg {before message : FepControlMessage} {index : Nat} {bytes : List UInt8}
    (h : controlMessageWriteArg before index bytes = .ok (0, message)) :
    message.args[index]? = some bytes := by
  unfold controlMessageWriteArg at h
  split at h
  · exact absurd (congrArg Prod.fst (Except.ok.inj h)) (by simp)
  · split at h
    · exact absurd h (by simp)
    · next hle hne =>
      obtain ⟨-, rfl⟩ := Prod.mk.inj (Except.ok.inj h)
      exact List.getElem?_set_self (by omega)

/-! ## The reader of an attribute -/

theorem setWidth_eq_leByte (w : BitVec 32) : w.setWidth 8 = (leByte w 0).toBitVec := by
  apply BitVec.eq_of_toNat_eq
  rw [BitVec.toNat_setWidth]
  have := toNat_leByte w 0
  rw [Nat.pow_zero, Nat.div_one] at this
  exact this.symm

/-- A little-endian host reads the low byte of a field. -/
theorem readAttributeField_littleEndian {p : Platform} (hp : p.wordsBigEndian = false)
    (arg : List UInt8) (field : Nat) :
    readAttributeField p arg field = (arg.getD (4 * field) 0).toBitVec.setWidth 32 := by
  unfold readAttributeField wordAt loadWord
  simp only [hp, Bool.false_eq_true, if_false]
  rw [setWidth_eq_leByte, (leByte_ofLeBytes _ _ _ _).1]

/-- A big-endian host reads 0: the byte that is left is swapped out of the `uint8_t`. -/
theorem readAttributeField_bigEndian {p : Platform} (hp : p.wordsBigEndian = true)
    (arg : List UInt8) (field : Nat) : readAttributeField p arg field = 0 := by
  unfold readAttributeField
  simp only [hp, if_true]
  rw [setWidth_eq_leByte, bswap32, (leByte_ofLeBytes _ _ _ _).1]
  have hzero (b : BitVec 8) : leByte (b.setWidth 32) 3 = 0 := by
    apply UInt8.toNat_inj.mp
    rw [toNat_leByte, BitVec.toNat_setWidth]
    have := b.isLt
    show b.toNat % 2 ^ 32 / 256 ^ 3 % 256 = 0
    omega
  rw [hzero]
  rfl

/-- The four words of an attribute argument have a low byte of zero. -/
def LowBytesZero (arg : List UInt8) : Prop := ∀ field < 4, arg.getD (4 * field) 0 = 0

theorem readAttributeField_eq_iff {p q : Platform} (hp : p.wordsBigEndian = false)
    (hq : q.wordsBigEndian = true) (arg : List UInt8) (field : Nat) :
    readAttributeField p arg field = readAttributeField q arg field ↔
      arg.getD (4 * field) 0 = 0 := by
  rw [readAttributeField_littleEndian hp, readAttributeField_bigEndian hq]
  constructor
  · intro h
    apply UInt8.toNat_inj.mp
    have htoNat := congrArg BitVec.toNat h
    have hlt := (arg.getD (4 * field) 0).toBitVec.isLt
    rw [BitVec.toNat_setWidth, Nat.mod_eq_of_lt (by omega)] at htoNat
    exact htoNat
  · intro h
    rw [h]
    rfl

/-- An attribute is read field by field, if the argument is one of sixteen bytes. -/
def attributeOf (p : Platform) (arg : List UInt8) : FepAttribute where
  type := readAttributeField p arg 0
  value := readAttributeField p arg 1
  startIndex := readAttributeField p arg 2
  endIndex := readAttributeField p arg 3

theorem controlMessageReadAttributeArg_eq_map (p : Platform) (message : FepControlMessage)
    (index : Nat) :
    controlMessageReadAttributeArg p message index =
      (controlMessageArg message index 16).map (·.map (attributeOf p)) := by
  unfold controlMessageReadAttributeArg
  match controlMessageArg message index 16 with
  | .error _ => rfl
  | .ok none => rfl
  | .ok (some arg) => rfl

theorem attributeOf_eq_iff {p q : Platform} (hp : p.wordsBigEndian = false)
    (hq : q.wordsBigEndian = true) (arg : List UInt8) :
    attributeOf p arg = attributeOf q arg ↔ LowBytesZero arg := by
  have hfield := readAttributeField_eq_iff hp hq arg
  rw [attributeOf, attributeOf, FepAttribute.mk.injEq, hfield, hfield, hfield, hfield]
  constructor
  · rintro ⟨h0, h1, h2, h3⟩ field hlt
    rcases (by omega : field = 0 ∨ field = 1 ∨ field = 2 ∨ field = 3) with rfl | rfl | rfl | rfl
    · exact h0
    · exact h1
    · exact h2
    · exact h3
  · intro h
    exact ⟨h 0 (by omega), h 1 (by omega), h 2 (by omega), h 3 (by omega)⟩

theorem controlMessageArg_of_mem {message : FepControlMessage} {arg : List UInt8}
    (h : arg ∈ message.args) :
    ∃ index, controlMessageArg message index arg.length = .ok (some arg) := by
  obtain ⟨index, hlt, hget⟩ := List.mem_iff_getElem.mp h
  refine ⟨index, ?_⟩
  rw [controlMessageArg, if_neg (by omega), List.getElem?_eq_getElem hlt, hget]
  simp

theorem mem_of_controlMessageArg {message : FepControlMessage} {index len : Nat} {arg : List UInt8}
    (h : controlMessageArg message index len = .ok (some arg)) :
    arg ∈ message.args ∧ arg.length = len := by
  unfold controlMessageArg at h
  split at h
  · exact absurd (Except.ok.inj h) (by simp)
  · split at h
    · exact absurd h (by simp)
    · next arg' hget =>
      split at h
      · exact absurd (Except.ok.inj h) (by simp)
      · next hlen =>
        obtain rfl := Option.some.inj (Except.ok.inj h)
        exact ⟨List.mem_of_getElem? hget, not_not.mp hlen⟩

/-- **The two hosts read the same attributes** exactly if these have the low bytes of their four fields
all zero. -/
theorem controlMessageReadAttributeArg_eq_iff {p q : Platform} (hp : p.wordsBigEndian = false)
    (hq : q.wordsBigEndian = true) (message : FepControlMessage) :
    (∀ index, controlMessageReadAttributeArg p message index =
        controlMessageReadAttributeArg q message index) ↔
      ∀ arg ∈ message.args, arg.length = 16 → LowBytesZero arg := by
  simp only [controlMessageReadAttributeArg_eq_map]
  constructor
  · intro h arg harg hlen
    obtain ⟨index, hsome⟩ := controlMessageArg_of_mem harg
    have hsame := h index
    rw [← hlen, hsome] at hsame
    exact (attributeOf_eq_iff hp hq arg).mp (Option.some.inj (Except.ok.inj hsame))
  · intro h index
    cases hget : controlMessageArg message index 16 with
    | error fault => rfl
    | ok arg? =>
      cases arg? with
      | none => rfl
      | some arg =>
        obtain ⟨hmem, hlen⟩ := mem_of_controlMessageArg hget
        have hsame := (attributeOf_eq_iff hp hq arg).mpr (h arg hmem hlen)
        exact congrArg (fun attr => Except.ok (some attr)) hsame

/-! ## The wire format -/

/-- A number that the one build stores in a message is the number that the other reads from it. -/
def ReadsNumbersOf (writer reader : Platform) (message : FepControlMessage) : Prop :=
  ∀ before index val,
    controlMessageWriteUint32Arg writer before index val = .ok (0, message) →
      controlMessageReadUint32Arg reader message index = .ok (some val)

theorem readsNumbersOf (writer reader : Platform) (message : FepControlMessage) :
    ReadsNumbersOf writer reader message := by
  intro before index val hwrite
  have hget := getElem?_of_writeArg hwrite
  rw [writer.wireWord_congr reader] at hget
  exact controlMessageReadUint32Arg_wireWord reader hget

/-- What no message shows of the build: its bytes, and the numbers in it. -/
structure BytesIndependent (p q : Platform) (message : FepControlMessage) : Prop where
  /-- The builds write the same bytes. -/
  writes : ∀ results, writeControlMessage p results message = writeControlMessage q results message
  /-- They store a number and an attribute in the same bytes. -/
  storesNumber : ∀ index val, controlMessageWriteUint32Arg p message index val =
    controlMessageWriteUint32Arg q message index val
  storesAttribute : ∀ index attr, controlMessageWriteAttributeArg p message index attr =
    controlMessageWriteAttributeArg q message index attr
  numbers : ∀ index, controlMessageReadUint32Arg p message index =
    controlMessageReadUint32Arg q message index
  /-- The number read is the one written, by either build. -/
  written : ∀ writer ∈ [p, q], ∀ reader ∈ [p, q], ReadsNumbersOf writer reader message

theorem bytesIndependent (p q : Platform) (message : FepControlMessage) :
    BytesIndependent p q message where
  writes results := writeControlMessage_congr p q results message
  storesNumber index val := by
    rw [controlMessageWriteUint32Arg, controlMessageWriteUint32Arg, p.wireWord_congr q]
  storesAttribute index attr := by
    simp only [controlMessageWriteAttributeArg, p.wireWord_congr q]
  numbers index := controlMessageReadUint32Arg_congr p q message index
  written writer _ reader _ := readsNumbersOf writer reader message

/-- Nothing about a message depends on which of the two builds writes it and which reads it. -/
structure HostIndependent (p q : Platform) (message : WireMessage) : Prop extends
    BytesIndependent p q message.toFepControlMessage where
  /-- Both recover the arguments. -/
  recovers : RoundTrips p [message.toFepControlMessage] ∧ RoundTrips q [message.toFepControlMessage]
  attributes : ∀ index, controlMessageReadAttributeArg p message.toFepControlMessage index =
    controlMessageReadAttributeArg q message.toFepControlMessage index

/-- **When the wire format does not depend on the host**: the bytes and the numbers never do. Nothing
does if both builds reassemble the lengths of the arguments, and every argument that can be read as an
attribute has low bytes of zero. -/
theorem hostIndependent_iff {p q : Platform} (hp : p.wordsBigEndian = false)
    (hq : q.wordsBigEndian = true) (message : WireMessage) :
    BytesIndependent p q message.toFepControlMessage ∧
      (HostIndependent p q message ↔
        (∀ arg ∈ message.args, p.LengthReadable arg.length ∧ q.LengthReadable arg.length) ∧
          ∀ arg ∈ message.args, arg.length = 16 → LowBytesZero arg) := by
  have hrecovers (p : Platform) : RoundTrips p [message.toFepControlMessage] ↔
      ∀ arg ∈ message.args, p.LengthReadable arg.length := by
    simpa using roundTrips_iff_lengthReadable p [message]
  have hattributes := controlMessageReadAttributeArg_eq_iff hp hq message.toFepControlMessage
  refine ⟨bytesIndependent p q _, ?_, ?_⟩
  · intro h
    have hlengths := (hrecovers p).mp h.recovers.1
    have hlengths' := (hrecovers q).mp h.recovers.2
    exact ⟨fun arg harg => ⟨hlengths arg harg, hlengths' arg harg⟩, hattributes.mp h.attributes⟩
  · rintro ⟨hlengths, hlow⟩
    refine { toBytesIndependent := bytesIndependent p q _, recovers := ⟨?_, ?_⟩, attributes := ?_ }
    · exact (hrecovers p).mpr fun arg harg => (hlengths arg harg).1
    · exact (hrecovers q).mpr fun arg harg => (hlengths arg harg).2
    · exact hattributes.mpr hlow

/-- RESIZE_EVENT for 80 columns and 24 rows. -/
def resizeEvent80x24 : WireMessage where
  command := .resizeEvent
  args := [[80, 0, 0, 0], [24, 0, 0, 0]]
  n_args_eq := rfl
  len_lt := by simp

/-- The number of rows, stored by the big-endian build, is what the other one reads. -/
theorem hostIndependent_iff_resizeEvent :
    (controlMessageWriteUint32Arg .s390x ⟨.resizeEvent, [[80, 0, 0, 0], []]⟩ 1 24 =
        .ok (0, resizeEvent80x24.toFepControlMessage) ∧
      controlMessageReadUint32Arg .x86_64 resizeEvent80x24.toFepControlMessage 1 =
        .ok (some 24)) ∧
      (HostIndependent .x86_64 .s390x resizeEvent80x24 ↔
        (∀ arg ∈ resizeEvent80x24.args, Platform.x86_64.LengthReadable arg.length ∧
            Platform.s390x.LengthReadable arg.length) ∧
          ∀ arg ∈ resizeEvent80x24.args, arg.length = 16 → LowBytesZero arg) := by
  obtain ⟨hbytes, hiff⟩ := hostIndependent_iff (p := .x86_64) (q := .s390x) rfl rfl resizeEvent80x24
  have hstored : controlMessageWriteUint32Arg .s390x ⟨.resizeEvent, [[80, 0, 0, 0], []]⟩ 1 24 =
      .ok (0, resizeEvent80x24.toFepControlMessage) := by decide
  refine ⟨⟨hstored, ?_⟩, hiff⟩
  exact hbytes.written .s390x (by simp) .x86_64 (by simp) _ 1 24 hstored

/-- SET_STATUS_TEXT with no text and the attribute for a foreground colour. -/
def setStatusTextForeground : WireMessage where
  command := .setStatusText
  args := [[], [1, 0, 0, 0, 1, 0, 0, 0, 0, 0, 0, 0, 4, 0, 0, 0]]
  n_args_eq := rfl
  len_lt := by simp

/-- The big-endian host reads all of its fields as 0. -/
theorem not_hostIndependent_foreground :
    ¬ HostIndependent .x86_64 .s390x setStatusTextForeground ∧
      controlMessageReadAttributeArg .x86_64 setStatusTextForeground.toFepControlMessage 1 =
        .ok (some ⟨1, 1, 0, 4⟩) ∧
      controlMessageReadAttributeArg .s390x setStatusTextForeground.toFepControlMessage 1 =
        .ok (some ⟨0, 0, 0, 0⟩) := by
  have hlittle : controlMessageReadAttributeArg .x86_64 setStatusTextForeground.toFepControlMessage 1 =
      .ok (some ⟨1, 1, 0, 4⟩) := by decide
  have hbig : controlMessageReadAttributeArg .s390x setStatusTextForeground.toFepControlMessage 1 =
      .ok (some ⟨0, 0, 0, 0⟩) := by decide
  refine ⟨fun h => ?_, hlittle, hbig⟩
  have hsame := h.attributes 1
  rw [hlittle, hbig] at hsame
  exact absurd hsame (by decide)

end LibFep
