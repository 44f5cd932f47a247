import LibFep.Input.KeyAssertion

/-!
# LibFep — function and editing keys

How `_fep_esc_to_key` of `fep/key.c` recognizes the strings that terminfo has for the keys of
`cap_keyvals`. No complete CSI sequence starts another one, so that the comparison of the prefixes in
table order finds the right entry. A sequence `ESC O F` does not get to the table.

* **`find?_capKeyvals`** — the entry that a CSI sequence of the table is found at.
* **`decodeKey_capability_iff`** — the strings that are recognized.
-/

namespace LibFep

open Lib

/-! ## Key tables -/

/-- The forms of a terminfo string for a key. -/
inductive CapForm : List UInt8 → Prop where
  | byte {b : UInt8} (hne : b ≠ escape) : CapForm [b]
  | csi (s : ControlSequence) : CapForm s.bytes
  | ss3 {f : UInt8} (hfinal : isFinal f = true) : CapForm [escape, 0x4F, f]

/-- A terminfo key table in which every entry that is not absent has one of the forms. -/
structure KeyTable where
  strings : KeyStrings
  form : ∀ cap c, strings cap = some c → CapForm c

/-- A string of several bytes for a key that is no cursor key. -/
inductive KeySequence : List UInt8 → Prop where
  | csi (s : ControlSequence) (hfinal : isSs3Final s.final = false) : KeySequence s.bytes
  | ss3 {f : UInt8} (hfinal : isFinal f = true) (hnot : isSs3Final f = false) :
      KeySequence [escape, 0x4F, f]

/-- An entry that is a prefix of a sequence is the sequence. -/
theorem CapForm.eq_of_isPrefix {c : List UInt8} {s : ControlSequence} (hform : CapForm c)
    (h : c <+: s.bytes) : c = s.bytes := by
  cases hform with
  | byte hne =>
    obtain ⟨t, ht⟩ := h
    exact absurd (List.cons.inj ht).1 hne
  | csi s' => rw [s.eq_of_isPrefix h]
  | ss3 hfinal =>
    obtain ⟨t, ht⟩ := h
    exact absurd (List.cons.inj (List.cons.inj ht).2).1 (by decide)

theorem hasCapPrefix_iff {strings : KeyStrings} {csi_str : List UInt8} {cap : KeyCapability} :
    hasCapPrefix strings csi_str cap = true ↔ ∃ c, strings cap = some c ∧ c <+: csi_str := by
  unfold hasCapPrefix
  cases strings cap with
  | none => simp
  | some c => simp

/-! ## The comparison in table order -/

/-- **The entry found for a sequence of the table** is its own. -/
theorem find?_capKeyvals (table : KeyTable) {entry : KeyCapability × BitVec 32}
    {s : ControlSequence} (hentry : entry ∈ capKeyvals)
    (hc : table.strings entry.1 = some s.bytes)
    (hunshared : ∀ other ∈ capKeyvals, table.strings other.1 = some s.bytes → other = entry) :
    capKeyvals.find? (fun entry => hasCapPrefix table.strings s.bytes entry.1) = some entry := by
  cases hfind : capKeyvals.find? (fun entry => hasCapPrefix table.strings s.bytes entry.1) with
  | none =>
    have hnot := List.find?_eq_none.mp hfind entry hentry
    exact absurd (hasCapPrefix_iff.mpr ⟨_, hc, List.prefix_refl _⟩) hnot
  | some other =>
    have hbegins : hasCapPrefix table.strings s.bytes other.1 = true := by
      simpa using List.find?_some hfind
    obtain ⟨c, hother, hpre⟩ := hasCapPrefix_iff.mp hbegins
    have hsame := (table.form other.1 c hother).eq_of_isPrefix hpre
    rw [hunshared other (List.mem_of_find?_eq_some hfind) (hsame ▸ hother)]

theorem csiToKey_bytes (p : Platform) (strings : KeyStrings) {s : ControlSequence}
    (hfinal : isSs3Final s.final = false) :
    csiToKey p strings ⟨s.params, s.intermediates, s.final⟩ =
      .ok ((capKeyvals.find? fun entry => hasCapPrefix strings s.bytes entry.1).map
        fun entry => ⟨entry.2, 0⟩) := by
  have hstr : (csiFormat ⟨s.params, s.intermediates, s.final⟩).takeWhile (· ≠ 0) = s.bytes := by
    apply List.takeWhile_eq_self_iff.mpr
    intro b hb
    exact decide_eq_true (s.ne_zero_of_mem b hb)
  rw [csiToKey_of_not p strings hfinal, hstr]

/-! ## The first key of a string -/

theorem decodeKey_bytes (p : Platform) (strings : KeyStrings) {s : ControlSequence}
    (hfinal : isSs3Final s.final = false) {entry : KeyCapability × BitVec 32}
    (hfind : capKeyvals.find? (fun entry => hasCapPrefix strings s.bytes entry.1) = some entry)
    (t : List UInt8) :
    decodeKey p strings (s.bytes ++ t) 0 = .ok (some ⟨entry.2, 0⟩, s.bytes.length) := by
  have hparse := csiParse_bytes s t
  have hkey : escToKey p strings (s.bytes ++ t) = .ok (some (⟨entry.2, 0⟩, s.length)) := by
    rw [escToKey_of_parse (by decide) hparse, keyOfSequence_csi, csiToKey_bytes p strings hfinal,
      hfind]
    rfl
  rw [decodeKey, List.drop_zero, hkey, ok_bind, s.length_bytes]
  simp only [Nat.zero_add]
  rfl

/-- `ESC O F` is decoded as the Escape key, unless it is a cursor key. -/
theorem decodeKey_ss3 (p : Platform) (strings : KeyStrings) {f : UInt8} (hfinal : isFinal f = true)
    (hnot : isSs3Final f = false) (t : List UInt8) :
    decodeKey p strings ([escape, 0x4F, f] ++ t) 0 = .ok (some ⟨fepEscape, 0⟩, 1) := by
  have hparse : csiParse ([escape, 0x4F, f] ++ t) 0x4F = some (⟨[], [], f⟩, 3) :=
    csiParse_eq_some_iff.mpr ⟨⟨by simp, by simp, fun _ => not_isParam_of_isFinal hfinal,
      not_isIntermediate_of_isFinal hfinal⟩, rfl, t, rfl⟩
  have hkey : escToKey p strings ([escape, 0x4F, f] ++ t) = .ok none := by
    rw [escToKey_of_parse (by decide) hparse, keyOfSequence_ss3, hnot]
    rfl
  rw [decodeKey, List.drop_zero, hkey, ok_bind]
  rfl

/-- **The key strings that are recognized** are the CSI sequences, whatever bytes follow them. -/
theorem decodeKey_capability_iff (p : Platform) (table : KeyTable)
    {entry : KeyCapability × BitVec 32} {c : List UInt8} (hentry : entry ∈ capKeyvals)
    (hc : table.strings entry.1 = some c) (hseq : KeySequence c)
    (hunshared : ∀ other ∈ capKeyvals, table.strings other.1 = some c → other = entry)
    (t : List UInt8) :
    decodeKey p table.strings (c ++ t) 0 = .ok (some ⟨entry.2, 0⟩, c.length) ↔
      ∃ s : ControlSequence, c = s.bytes := by
  cases hseq with
  | csi s hfinal =>
    refine iff_of_true ?_ ⟨s, rfl⟩
    exact decodeKey_bytes p table.strings hfinal (find?_capKeyvals table hentry hc hunshared) t
  | ss3 hfinal hnot =>
    refine iff_of_false ?_ ?_
    · rw [decodeKey_ss3 p table.strings hfinal hnot]
      intro heq
      have hlen : 1 = 3 := (Prod.mk.inj (Except.ok.inj heq)).2
      exact absurd hlen (by decide)
    · rintro ⟨s, hs⟩
      exact absurd (List.cons.inj (List.cons.inj hs).2).1 (by decide)

/-- Insert and F1 of an xterm: `ESC [ 2 ~` and `ESC O P`. -/
def xtermKeys : KeyTable where
  strings
    | .keyIc => some [escape, 0x5B, 0x32, 0x7E]
    | .keyF 0 => some [escape, 0x4F, 0x50]
    | _ => none
  form := by
    intro cap c hc
    split at hc
    · rw [← Option.some.inj hc]
      exact .csi ⟨[0x32], [], 0x7E, List.forall_mem_singleton.mpr rfl, List.forall_mem_nil _, rfl⟩
    · rw [← Option.some.inj hc]
      exact .ss3 (by decide)
    · exact absurd hc (by simp)

theorem decodeKey_capability_iff_insert :
    decodeKey .x86_64 xtermKeys.strings ([escape, 0x5B, 0x32, 0x7E] ++ [0x61]) 0 =
        .ok (some ⟨fepInsert, 0⟩, 4) ↔
      ∃ s : ControlSequence, [escape, 0x5B, 0x32, 0x7E] = s.bytes :=
  @decodeKey_capability_iff .x86_64 xtermKeys (.keyIc, fepInsert) _ (by decide) rfl
    (.csi ⟨[0x32], [], 0x7E, List.forall_mem_singleton.mpr rfl, List.forall_mem_nil _, rfl⟩ rfl)
    (by decide) [0x61]

/-- F1 is reported as Escape. -/
theorem not_decodeKey_capability_f1 :
    ¬ ∀ (p : Platform) (table : KeyTable) (entry : KeyCapability × BitVec 32) (c : List UInt8),
      entry ∈ capKeyvals → table.strings entry.1 = some c → KeySequence c →
      (∀ other ∈ capKeyvals, table.strings other.1 = some c → other = entry) →
      ∀ t, decodeKey p table.strings (c ++ t) 0 = .ok (some ⟨entry.2, 0⟩, c.length) := by
  intro hall
  have hkey := hall .x86_64 xtermKeys (.keyF 0, fepF 0) [escape, 0x4F, 0x50] (by decide) rfl
    (.ss3 (by decide) (by decide)) (by decide) []
  exact absurd hkey (by decide)

end LibFep
