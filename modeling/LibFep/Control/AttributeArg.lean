import LibFep.Control.HostOrder

/-!
# LibFep — attributes as arguments

`_fep_control_message_write_attribute_arg` and `_fep_control_message_read_attribute_arg` of
`libfep/control.c` on one host. The writer stores the four fields as words, the reader takes each of them
through a `uint8_t`.

* **`attributeOf_wireAttribute_iff`** — the attributes that are read back as they were written.
* **`attributeRoundTrips_iff`** — what this says of a message and an index below `n_args`.
-/

namespace LibFep

open Lib

/-! ## Attributes that are read back -/

/-- What the reader can hold of a field: a byte, or on a big-endian host nothing but 0. -/
def Platform.fieldBound (p : Platform) : Nat := if p.wordsBigEndian then 1 else 256

/-- The attribute is read back as it was sent. -/
structure ReadsBack (p : Platform) (attr : FepAttribute) : Prop where
  type : attr.type.toNat < p.fieldBound
  value : attr.value.toNat < p.fieldBound
  startIndex : attr.startIndex.toNat < p.fieldBound
  endIndex : attr.endIndex.toNat < p.fieldBound

/-- The first byte of a field of an attribute argument is the lowest of its word. -/
theorem getD_wireAttribute (p : Platform) (attr : FepAttribute) :
    (p.wireAttribute attr).getD (4 * 0) 0 = leByte attr.type 0 ∧
      (p.wireAttribute attr).getD (4 * 1) 0 = leByte attr.value 0 ∧
      (p.wireAttribute attr).getD (4 * 2) 0 = leByte attr.startIndex 0 ∧
      (p.wireAttribute attr).getD (4 * 3) 0 = leByte attr.endIndex 0 := by
  unfold Platform.wireAttribute
  simp only [Platform.wireWord_eq]
  exact ⟨rfl, rfl, rfl, rfl⟩

/-- A field is read back exactly if it fits. -/
theorem readAttributeField_eq_iff_lt (p : Platform) {arg : List UInt8} {field : Nat} {w : BitVec 32}
    (hbyte : arg.getD (4 * field) 0 = leByte w 0) :
    readAttributeField p arg field = w ↔ w.toNat < p.fieldBound := by
  have hw := w.isLt
  cases hbe : p.wordsBigEndian with
  | false =>
    rw [readAttributeField_littleEndian hbe, hbyte, Platform.fieldBound, hbe, ← BitVec.toNat_inj,
      BitVec.toNat_setWidth]
    have hlow : (leByte w 0).toBitVec.toNat = w.toNat % 256 := by
      have := toNat_leByte w 0
      rwa [Nat.pow_zero, Nat.div_one] at this
    rw [hlow]
    simp only [Bool.false_eq_true, if_false]
    omega
  | true =>
    rw [readAttributeField_bigEndian hbe, Platform.fieldBound, hbe, ← BitVec.toNat_inj]
    simp only [if_true]
    show 0 = w.toNat ↔ _
    omega

theorem attributeOf_wireAttribute_iff (p : Platform) (attr : FepAttribute) :
    attributeOf p (p.wireAttribute attr) = attr ↔ ReadsBack p attr := by
  obtain ⟨h0, h1, h2, h3⟩ := getD_wireAttribute p attr
  have hiff : attributeOf p (p.wireAttribute attr) = attr ↔
      readAttributeField p (p.wireAttribute attr) 0 = attr.type ∧
        readAttributeField p (p.wireAttribute attr) 1 = attr.value ∧
        readAttributeField p (p.wireAttribute attr) 2 = attr.startIndex ∧
        readAttributeField p (p.wireAttribute attr) 3 = attr.endIndex := by
    rw [attributeOf, FepAttribute.mk.injEq]
  rw [hiff, readAttributeField_eq_iff_lt p h0, readAttributeField_eq_iff_lt p h1,
    readAttributeField_eq_iff_lt p h2, readAttributeField_eq_iff_lt p h3]
  constructor
  · rintro ⟨htype, hvalue, hstart, hend⟩
    exact ⟨htype, hvalue, hstart, hend⟩
  · intro h
    exact ⟨h.type, h.value, h.startIndex, h.endIndex⟩

/-! ## The two functions -/

theorem length_wireAttribute (p : Platform) (attr : FepAttribute) :
    (p.wireAttribute attr).length = 16 := by
  simp [Platform.wireAttribute]

/-- The reader takes the fields from the argument that the writer stored. -/
theorem controlMessageReadAttributeArg_wireAttribute (p : Platform) {message : FepControlMessage}
    {index : Nat} {attr : FepAttribute}
    (h : message.args[index]? = some (p.wireAttribute attr)) :
    controlMessageReadAttributeArg p message index =
      .ok (some (attributeOf p (p.wireAttribute attr))) := by
  obtain ⟨hlt, -⟩ := List.getElem?_eq_some_iff.mp h
  have harg : controlMessageArg message index 16 = .ok (some (p.wireAttribute attr)) := by
    rw [controlMessageArg, if_neg (by omega), h]
    simp [length_wireAttribute]
  rw [controlMessageReadAttributeArg_eq_map, harg]
  rfl

/-- The writer stores the argument and returns 0. -/
theorem controlMessageWriteAttributeArg_of_lt (p : Platform) {message : FepControlMessage}
    {index : Nat} (h : index < message.args.length) (attr : FepAttribute) :
    controlMessageWriteAttributeArg p message index attr =
      .ok (0, { message with args := message.args.set index (p.wireAttribute attr) }) := by
  show controlMessageWriteArg message index (p.wireAttribute attr) = _
  rw [controlMessageWriteArg, if_neg (by omega), if_neg (by omega)]

/-- The attribute written at an index is read there, by two calls that return 0, and the rest of the
message is left alone. -/
def AttributeRoundTrips (p : Platform) (message : FepControlMessage) (index : Nat)
    (attr : FepAttribute) : Prop :=
  ∃ after, controlMessageWriteAttributeArg p message index attr = .ok (0, after) ∧
    controlMessageReadAttributeArg p after index = .ok (some attr) ∧
    after.command = message.command ∧ after.args.length = message.args.length ∧
    ∀ other, other ≠ index → after.args[other]? = message.args[other]?

/-- **An attribute goes through a message unchanged exactly if its four fields fit** what the reader
holds of them. The other arguments are never touched. -/
theorem attributeRoundTrips_iff {p : Platform} {message : FepControlMessage} {index : Nat}
    (h : index < message.args.length) (attr : FepAttribute) :
    AttributeRoundTrips p message index attr ↔ ReadsBack p attr := by
  have hwrite := controlMessageWriteAttributeArg_of_lt p h attr
  have hread : controlMessageReadAttributeArg p
      { message with args := message.args.set index (p.wireAttribute attr) } index =
        .ok (some (attributeOf p (p.wireAttribute attr))) := by
    apply controlMessageReadAttributeArg_wireAttribute
    exact List.getElem?_set_self h
  rw [← attributeOf_wireAttribute_iff]
  constructor
  · intro hround
    obtain ⟨after, hafter, hsame, -⟩ := hround
    rw [hwrite] at hafter
    rw [← (Prod.mk.inj (Except.ok.inj hafter)).2, hread] at hsame
    exact Option.some.inj (Except.ok.inj hsame)
  · intro hsame
    refine ⟨_, hwrite, ?_, rfl, List.length_set, ?_⟩
    · rw [hread, hsame]
    · intro other hne
      exact List.getElem?_set_ne (Ne.symm hne)

/-- A foreground colour on the first four characters. -/
theorem attributeRoundTrips_iff_foreground :
    AttributeRoundTrips .x86_64 (controlMessageAllocArgs .setStatusText 2) 1 ⟨1, 1, 0, 4⟩ ↔
      ReadsBack .x86_64 ⟨1, 1, 0, 4⟩ :=
  attributeRoundTrips_iff (by decide) ⟨1, 1, 0, 4⟩

/-- The same colour on 256 characters ends before the first of them. -/
theorem not_attributeRoundTrips_256 :
    ¬ AttributeRoundTrips .x86_64 (controlMessageAllocArgs .setStatusText 2) 1 ⟨1, 1, 0, 256⟩ := by
  have hlt : 1 < (controlMessageAllocArgs .setStatusText 2).args.length := by decide
  have hwrite := controlMessageWriteAttributeArg_of_lt .x86_64 hlt ⟨1, 1, 0, 256⟩
  rintro ⟨after, hafter, hsame, -⟩
  rw [hwrite] at hafter
  rw [← (Prod.mk.inj (Except.ok.inj hafter)).2] at hsame
  exact absurd hsame (by decide)

end LibFep
