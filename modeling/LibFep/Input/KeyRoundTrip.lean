import LibFep.Input.KeyLoop
import LibFep.Input.Capabilities

/-!
# LibFep — keys forwarded as they were reported

`_fep_key_to_string` of `fep/key.c` after `_fep_esc_to_key` and `_fep_char_to_key`: the bytes that a key
event stands for when a client sends it back, and what these are decoded as.

* **`forwards_char_iff`** — single bytes: the Meta modifier is dropped.
* **`forwards_cursor`** — cursor keys come back as CSI sequences.
* **`forwards_capability_iff`** — a key found in the table comes back if its whole string was there.
* **`forwards_iff`** — the three together.
-/

namespace LibFep

open Lib

/-- The bytes are decoded as one key. -/
def SingleKey (p : Platform) (strings : KeyStrings) (x : List UInt8) (event : KeyEvent) : Prop :=
  decodeKey p strings x 0 = .ok (some event, x.length)

/-- The string for the key is not empty and is decoded as the key again. -/
def Forwards (p : Platform) (strings : KeyStrings) (event : KeyEvent) : Prop :=
  keyToString strings event.keyval event.state ≠ [] ∧
    SingleKey p strings (keyToString strings event.keyval event.state) event

/-! ## Single bytes -/

theorem decodeKey_singleton (p : Platform) (strings : KeyStrings) (b : UInt8) :
    decodeKey p strings [b] 0 = .ok (charToKey b, 1) := rfl

/-- A character that has no modifier of its own. -/
def isPlain (c : UInt8) : Bool :=
  0x20 ≤ c && c ≤ 0x7E && !(0x41 ≤ c && c ≤ 0x5A)

/-- The table is looked at only for keys without bytes of their own. -/
theorem keyToString_of_ne_nil (strings : KeyStrings) {key state : BitVec 32}
    (h : keyToString (fun _ => none) key state ≠ []) :
    keyToString strings key state = keyToString (fun _ => none) key state := by
  unfold keyToString at h ⊢
  split_ifs at h ⊢
  all_goals try rfl
  refine absurd ?_ h
  cases List.find? (fun entry => decide (entry.2 = key)) capKeyvals <;> rfl

/-- The string of the key that a byte is: the byte without its high bit. -/
theorem keyToString_charToKey (strings : KeyStrings) {b : UInt8} {event : KeyEvent}
    (h : charToKey b = some event) :
    keyToString strings event.keyval event.state = [b &&& 0x7F] := by
  have hall : ∀ b : BitVec 8, (charToKey ⟨b⟩).map
      (fun event => keyToString (fun _ => none) event.keyval event.state) = some [⟨b⟩ &&& 0x7F] := by
    decide +kernel
  have hkey := hall b.toBitVec
  rw [h] at hkey
  have hbyte : keyToString (fun _ => none) event.keyval event.state = [b &&& 0x7F] :=
    Option.some.inj hkey
  rw [keyToString_of_ne_nil strings (by simp [hbyte]), hbyte]

/-- The bytes that are the same key without their high bit. -/
theorem charToKey_and_iff (b : UInt8) :
    charToKey (b &&& 0x7F) = charToKey b ↔ b < 0x80 ∨ isPlain (b &&& 0x7F) = true := by
  have hall : ∀ b : BitVec 8, charToKey (⟨b⟩ &&& 0x7F) = charToKey ⟨b⟩ ↔
      (⟨b⟩ : UInt8) < 0x80 ∨ isPlain (⟨b⟩ &&& 0x7F) = true := by
    decide +kernel
  exact hall b.toBitVec

theorem forwards_char_iff (p : Platform) (strings : KeyStrings) {b : UInt8} {event : KeyEvent}
    (h : charToKey b = some event) :
    Forwards p strings event ↔ b < 0x80 ∨ isPlain (b &&& 0x7F) = true := by
  have hsame : decodeKey p strings [b &&& 0x7F] 0 = .ok (some event, 1) ↔
      charToKey (b &&& 0x7F) = charToKey b := by
    rw [decodeKey_singleton, h]
    constructor
    · intro heq
      exact (Prod.mk.inj (Except.ok.inj heq)).1
    · intro heq
      rw [heq]
  rw [Forwards, SingleKey, keyToString_charToKey strings h, ← charToKey_and_iff, ← hsame]
  exact and_iff_right (by simp)

/-! ## Cursor keys -/

/-- The modifiers of a cursor key. -/
def IsCursorState (state : BitVec 32) : Prop :=
  state = 0 ∨ state = fepShiftMask ∨ state = fepControlMask

theorem isCursorState_of_getStateFromCursor {p : Platform} {csi : FepCSI} {state : BitVec 32}
    (h : getStateFromCursor p csi = .ok state) : IsCursorState state := by
  unfold getStateFromCursor at h
  split at h
  · simp only at h
    split at h
    · rw [← Except.ok.inj h]
      cases hfind : cursorStates.find?
          (fun entry => decide ((entry.1 : Int) = (p.strtoul _).toInt)) with
      | none => exact Or.inl rfl
      | some entry =>
        have hmem := List.mem_of_find?_eq_some hfind
        simp only [cursorStates, List.mem_cons, List.not_mem_nil, or_false] at hmem
        rcases hmem with rfl | rfl
        · exact Or.inr (Or.inl rfl)
        · exact Or.inr (Or.inr rfl)
    · exact absurd h (by simp)
  · exact Or.inl (Except.ok.inj h).symm

/-- A second parameter of one digit. -/
theorem getStateFromCursor_digit (p : Platform) {d : UInt8} (hdigit : isDigit d = true)
    (final : UInt8) :
    getStateFromCursor p ⟨[0x30, 0x3B, d], [], final⟩ =
      .ok ((cursorStates.find? (fun entry =>
        (entry.1 : Int) = (BitVec.ofNat 32 (digitsValue [d])).toInt)).elim 0 (·.2)) := by
  have hne : d ≠ 0x3B := by
    rintro rfl
    exact absurd hdigit (by decide)
  have hsplit : strsplit [0x30, 0x3B, d] [0x3B] (by simp) = [[0x30], [d]] := by
    rw [show ([0x30, 0x3B, d] : List UInt8) = [0x30] ++ 0x3B :: [d] from rfl,
      strsplit_append (by decide), strsplit_of_not_mem (by simpa using hne.symm), if_neg (by simp)]
  have hall : ∀ b ∈ [d], isDigit b = true := by simpa using hdigit
  have hle : digitsValue [d] ≤ p.ulongMax := by
    have hvalue : digitsValue [d] = 10 * 0 + (d.toNat - 48) := rfl
    have hlt := d.toNat_lt
    have hge := p.ulongMax_ge
    omega
  have hpass : (p.strtoul [d]).Passes := passes_of_digits hall hle
  simp only [getStateFromCursor, hsplit, if_pos hpass, Strtoul.toInt, value_strtoul hall hle]

/-- The parameters of a modifier are read back as the modifier. -/
theorem getStateFromCursor_cursorParams (p : Platform) {state : BitVec 32}
    (h : IsCursorState state) (final : UInt8) :
    getStateFromCursor p ⟨cursorParams state, [], final⟩ = .ok state := by
  rcases h with rfl | rfl | rfl
  · have hsplit : strsplit (cursorParams 0) [0x3B] (by simp) = [] := strsplit_of_not_mem (by decide)
    simp only [getStateFromCursor, hsplit]
  · exact getStateFromCursor_digit p (by decide) final
  · exact getStateFromCursor_digit p (by decide) final

theorem isParam_of_mem_cursorParams {state : BitVec 32} (h : IsCursorState state) :
    ∀ b ∈ cursorParams state, isParam b = true := by
  rw [← List.all_eq_true]
  rcases h with rfl | rfl | rfl <;> decide

theorem mem_cursorKeyvals {entry : UInt8 × BitVec 32} (h : entry ∈ cursorKeyvals) :
    isSs3Final entry.1 = true ∧ isFinal entry.1 = true ∧
      cursorKeyvals.find? (fun e => e.1 = entry.1) = some entry := by
  have hall : cursorKeyvals.all (fun entry => isSs3Final entry.1 && isFinal entry.1 &&
      decide (cursorKeyvals.find? (fun e => e.1 = entry.1) = some entry)) = true := by decide
  simpa [and_assoc] using List.all_eq_true.mp hall entry h

/-- **A cursor key comes back**, with its modifier. -/
theorem forwards_cursor (p : Platform) (strings : KeyStrings) {entry : UInt8 × BitVec 32}
    (hentry : entry ∈ cursorKeyvals) {state : BitVec 32} (hstate : IsCursorState state) :
    Forwards p strings ⟨entry.2, state⟩ := by
  obtain ⟨-, hfinal, hfind⟩ := mem_cursorKeyvals hentry
  have hparse : csiParse (csiFormat ⟨cursorParams state, [], entry.1⟩) 0x5B =
      some (⟨cursorParams state, [], entry.1⟩, (cursorParams state).length + 3) :=
    csiParse_eq_some_iff.mpr ⟨⟨isParam_of_mem_cursorParams hstate, by simp,
      fun _ => not_isParam_of_isFinal hfinal, not_isIntermediate_of_isFinal hfinal⟩, rfl, [], rfl⟩
  have hkey : escToKey p strings (csiFormat ⟨cursorParams state, [], entry.1⟩) =
      .ok (some (⟨entry.2, state⟩, (cursorParams state).length + 3)) := by
    rw [escToKey_of_parse (by decide) hparse, keyOfSequence_csi, csiToKey, csiToCursorKey, hfind]
    simp only [getStateFromCursor_cursorParams p hstate]
    rfl
  have hlen : (csiFormat ⟨cursorParams state, [], entry.1⟩).length =
      0 + ((cursorParams state).length + 3) := by
    simp only [csiFormat, List.length_cons, List.length_append, List.length_nil]
    omega
  rw [Forwards, SingleKey, keyToString_cursor strings state entry hentry]
  refine ⟨by simp [csiFormat], ?_⟩
  rw [decodeKey, List.drop_zero, hkey, ok_bind, hlen]
  rfl

/-! ## Keys of the table -/

/-- The first entry of the table that a sequence starts with. -/
def capEntry (strings : KeyStrings) (x : List UInt8) : Option (KeyCapability × BitVec 32) :=
  capKeyvals.find? fun entry => hasCapPrefix strings (x.takeWhile (· ≠ 0)) entry.1

/-- The keys of the table that `_fep_key_to_string` has a string for. -/
def hasOwnString (cap : KeyCapability) : Bool :=
  [.keyBackspace, .keyHome, .keyEnd].contains cap

/-- The other keys, FEP_Delete apart, are given the string of the table. -/
theorem keyToString_capability (strings : KeyStrings) {entry : KeyCapability × BitVec 32}
    (hentry : entry ∈ capKeyvals) (hown : hasOwnString entry.1 = false) (hdc : entry.1 ≠ .keyDc) :
    keyToString strings entry.2 0 = (strings entry.1).getD [] := by
  have hall : ∀ entry ∈ capKeyvals, hasOwnString entry.1 = false → entry.1 ≠ .keyDc →
      isCursorKey entry.2 = false ∧
        entry.2 ∉ [0x20, fepReturn, fepBackSpace, fepEscape, fepTab] ∧
        charString entry.2 0 = [] ∧ capKeyvals.find? (fun e => e.2 = entry.2) = some entry := by
    decide
  obtain ⟨hcursor, hnamed, hchar, hfind⟩ := hall entry hentry hown hdc
  simp only [List.mem_cons, List.not_mem_nil, or_false, not_or] at hnamed
  obtain ⟨hspace, hreturn, hbackspace, hescape, htab⟩ := hnamed
  rw [keyToString, if_neg (by simp [hcursor]), if_neg hspace, if_neg hreturn, if_neg hbackspace,
    if_neg hescape, if_neg htab, if_neg (not_not.mpr hchar), hfind]
  rfl

/-- The key of an entry is not Escape, which is what a sequence that is cut off is decoded as. -/
theorem ne_escape_of_mem {entry : KeyCapability × BitVec 32} (h : entry ∈ capKeyvals) :
    entry.2 ≠ fepEscape := by
  have hall : ∀ entry ∈ capKeyvals, entry.2 ≠ fepEscape := by decide
  exact hall entry h

theorem csiParse_append {x : List UInt8} {introducer : UInt8} {r : FepCSI × Nat}
    (h : csiParse x introducer = some r) (t : List UInt8) :
    csiParse (x ++ t) introducer = some r := by
  obtain ⟨hcsi, hlen, u, rfl⟩ := csiParse_eq_some_iff.mp h
  exact csiParse_eq_some_iff.mpr ⟨hcsi, hlen, u ++ t, by simp⟩

/-- A part of a sequence is decoded as its first byte. -/
theorem decodeKey_of_proper_isPrefix (p : Platform) (strings : KeyStrings) {x c : List UInt8}
    {introducer : UInt8} {csi : FepCSI} (hparse : csiParse x introducer = some (csi, x.length))
    (hpre : c <+: x) (hne : c ≠ x) (hnil : c ≠ []) :
    decodeKey p strings c 0 = .ok (some ⟨fepEscape, 0⟩, 1) := by
  obtain ⟨t, rfl⟩ := hpre
  have hshort : c.length < (c ++ t).length := by
    rw [List.length_append]
    have := List.length_pos_iff.mpr (show t ≠ [] by
      rintro rfl
      exact hne (List.append_nil c).symm)
    omega
  have hnone : ∀ other ∈ keyIntroducers, csiParse c other = none := by
    intro other _
    by_contra hsome
    obtain ⟨r, hr⟩ := Option.ne_none_iff_exists'.mp hsome
    have hwhole := csiParse_append hr t
    by_cases hother : other = introducer
    · -- the sequence would end before the string
      subst hother
      rw [hparse] at hwhole
      have hlen : r.2 ≤ c.length := by
        obtain ⟨-, hlen, u, rfl⟩ := csiParse_eq_some_iff.mp (show csiParse c other =
          some (r.1, r.2) from hr)
        rw [hlen]
        simp only [FepCSI.length, List.length_cons, List.length_append]
        omega
      have hsame := congrArg Prod.snd (Option.some.inj hwhole)
      simp only at hsame
      omega
    · exact absurd (hwhole.symm.trans (csiParse_of_parse hparse hother)) (by simp)
  obtain ⟨-, -, u, hx⟩ := csiParse_eq_some_iff.mp hparse
  obtain ⟨c', rfl⟩ : ∃ c', c = escape :: c' := by
    cases c with
    | nil => exact absurd rfl hnil
    | cons b c' => exact ⟨c', by rw [(List.cons.inj hx).1]⟩
  rw [decodeKey, List.drop_zero, escToKey_of_none hnone, ok_bind]
  rfl

theorem forwards_ownString (p : Platform) (strings : KeyStrings)
    {entry : KeyCapability × BitVec 32} (hmem : entry ∈ capKeyvals)
    (hown : hasOwnString entry.1 = true) :
    entry.1 ≠ .keyDc ∧ Forwards p strings ⟨entry.2, 0⟩ := by
  have hall : ∀ entry ∈ capKeyvals, hasOwnString entry.1 = true → entry.1 ≠ .keyDc ∧
      (entry.2 = fepBackSpace ∨ ∃ cursor ∈ cursorKeyvals, cursor.2 = entry.2) := by
    decide
  obtain ⟨hdc, hkey⟩ := hall entry hmem hown
  refine ⟨hdc, ?_⟩
  rcases hkey with hkey | ⟨cursor, hcursor, hkey⟩
  · rw [hkey]
    exact (forwards_char_iff p strings (show charToKey 0x7F = some ⟨fepBackSpace, 0⟩ from rfl)).mpr
      (Or.inl (by decide))
  · rw [← hkey]
    exact forwards_cursor p strings hcursor (Or.inl rfl)

/-- The string for Delete lacks its final byte. -/
theorem not_forwards_delete (p : Platform) (strings : KeyStrings) :
    ¬ Forwards p strings ⟨fepDelete, 0⟩ := by
  rintro ⟨-, hsingle⟩
  rw [SingleKey, keyToString_delete] at hsingle
  have hescape : decodeKey p strings [escape, 0x5B] 0 = .ok (some ⟨fepEscape, 0⟩, 1) := rfl
  have hlen : 1 = 2 := (Prod.mk.inj (Except.ok.inj (hescape.symm.trans hsingle))).2
  exact absurd hlen (by decide)

theorem forwards_capability_iff (p : Platform) (strings : KeyStrings) {x : List UInt8}
    {introducer : UInt8} {csi : FepCSI} (hparse : csiParse x introducer = some (csi, x.length))
    {entry : KeyCapability × BitVec 32} (hentry : capEntry strings x = some entry)
    (hsingle : SingleKey p strings x ⟨entry.2, 0⟩) :
    Forwards p strings ⟨entry.2, 0⟩ ↔
      entry.1 ≠ .keyDc ∧ (hasOwnString entry.1 = true ∨ strings entry.1 = some x) := by
  have hmem := List.mem_of_find?_eq_some hentry
  cases hown : hasOwnString entry.1 with
  | true =>
    obtain ⟨hdc, hforwards⟩ := forwards_ownString p strings hmem hown
    exact iff_of_true hforwards ⟨hdc, Or.inl rfl⟩
  | false =>
    by_cases hdc : entry.1 = .keyDc
    · have hkey : entry.2 = fepDelete := by
        have hall : ∀ entry ∈ capKeyvals, entry.1 = .keyDc → entry.2 = fepDelete := by decide
        exact hall entry hmem hdc
      rw [hkey]
      exact iff_of_false (not_forwards_delete p strings) fun h => h.1 hdc
    · obtain ⟨c, hc, hpre⟩ : ∃ c, strings entry.1 = some c ∧ c <+: x.takeWhile (· ≠ 0) := by
        apply hasCapPrefix_iff.mp
        simpa using List.find?_some hentry
      have hbegins : c <+: x := hpre.trans (List.takeWhile_prefix _)
      have hstring : keyToString strings entry.2 0 = c := by
        rw [keyToString_capability strings hmem hown hdc, hc]
        rfl
      rw [Forwards, hstring, hc]
      by_cases hsame : c = x
      · subst hsame
        refine iff_of_true ⟨?_, hsingle⟩ ⟨hdc, Or.inr rfl⟩
        rintro rfl
        exact absurd hparse (by simp [csiParse])
      · refine iff_of_false ?_ ?_
        · rintro ⟨hnil, hagain⟩
          have hescape := decodeKey_of_proper_isPrefix p strings hparse hbegins hsame hnil
          have hevent := (Prod.mk.inj (Except.ok.inj (hescape.symm.trans hagain))).1
          exact ne_escape_of_mem hmem (congrArg KeyEvent.keyval (Option.some.inj hevent)).symm
        · rintro ⟨-, hown' | hx⟩
          · exact absurd hown' (by simp)
          · exact hsame (Option.some.inj hx)

/-! ## All keys -/

/-- Where a single key comes from. -/
inductive KeyOrigin (p : Platform) (strings : KeyStrings) (x : List UInt8) : KeyEvent → Prop where
  | char {b : UInt8} {event : KeyEvent} (hx : x = [b]) (hkey : charToKey b = some event) :
      KeyOrigin p strings x event
  | cursor {introducer : UInt8} {csi : FepCSI} {entry : UInt8 × BitVec 32} {state : BitVec 32}
      (hparse : csiParse x introducer = some (csi, x.length))
      (hfinal : introducer = 0x5B → isSs3Final csi.final = true)
      (hentry : entry ∈ cursorKeyvals) (hstate : IsCursorState state) :
      KeyOrigin p strings x ⟨entry.2, state⟩
  | capability {csi : FepCSI} {entry : KeyCapability × BitVec 32}
      (hparse : csiParse x 0x5B = some (csi, x.length)) (hfinal : isSs3Final csi.final = false)
      (hentry : capEntry strings x = some entry) : KeyOrigin p strings x ⟨entry.2, 0⟩

theorem csiToCursorKey_some {p : Platform} {csi : FepCSI} {event : KeyEvent}
    (h : csiToCursorKey p csi = .ok (some event)) :
    isSs3Final csi.final = true ∧
      ∃ entry ∈ cursorKeyvals, ∃ state, IsCursorState state ∧ event = ⟨entry.2, state⟩ := by
  cases hfinal : isSs3Final csi.final with
  | false =>
    rw [csiToCursorKey_of_not p hfinal] at h
    exact absurd (Except.ok.inj h) (by simp)
  | true =>
    obtain ⟨keyval, hfind, hkey⟩ := csiToCursorKey_of_final p hfinal
    rw [hkey] at h
    cases hstate : getStateFromCursor p csi with
    | error fault =>
      rw [hstate] at h
      exact absurd h (by simp [Except.map])
    | ok state =>
      rw [hstate] at h
      refine ⟨rfl, (csi.final, keyval), List.mem_of_find?_eq_some hfind, state,
        isCursorState_of_getStateFromCursor hstate, ?_⟩
      exact (Option.some.inj (Except.ok.inj h)).symm

/-- A sequence that is all of a string is formatted as the string. -/
theorem csiFormat_of_parse {x : List UInt8} {csi : FepCSI}
    (h : csiParse x 0x5B = some (csi, x.length)) : csiFormat csi = x := by
  obtain ⟨-, hlen, t, hx⟩ := csiParse_eq_some_iff.mp h
  have hnil : t = [] := by
    have hsame := congrArg List.length hx
    simp only [hlen, FepCSI.length, List.length_cons, List.length_append] at hsame
    apply List.eq_nil_of_length_eq_zero
    omega
  rw [hx, hnil]
  rfl

/-- A sequence with another introducer than `ESC [` is that of a cursor key. -/
theorem keyOrigin_of_cursor {p : Platform} {strings : KeyStrings} {x : List UInt8}
    {introducer : UInt8} {csi csi' : FepCSI} {event : KeyEvent} {final : Bool}
    (hparse : csiParse x introducer = some (csi, x.length)) (hne : introducer ≠ 0x5B)
    (h : (if final then csiToCursorKey p csi' else .ok none) = .ok (some event)) :
    KeyOrigin p strings x event := by
  split at h
  · obtain ⟨-, entry, hentry, state, hstate, rfl⟩ := csiToCursorKey_some h
    exact .cursor hparse (fun heq => absurd heq hne) hentry hstate
  · exact absurd (Except.ok.inj h) (by simp)

theorem keyOrigin_of_sequence {p : Platform} {strings : KeyStrings} {x : List UInt8}
    {introducer : UInt8} {csi : FepCSI} {event : KeyEvent} (hmem : introducer ∈ keyIntroducers)
    (hparse : csiParse x introducer = some (csi, x.length))
    (h : keyOfSequence p strings introducer csi = .ok (some event)) :
    KeyOrigin p strings x event := by
  simp only [keyIntroducers, List.mem_cons, List.not_mem_nil, or_false] at hmem
  rcases hmem with rfl | rfl | rfl
  · rw [keyOfSequence_ss3] at h
    exact keyOrigin_of_cursor hparse (by decide) h
  · rw [keyOfSequence_eterm] at h
    exact keyOrigin_of_cursor hparse (by decide) h
  · rw [keyOfSequence_csi] at h
    cases hfinal : isSs3Final csi.final with
    | true =>
      rw [csiToKey_of_cursor p strings hfinal] at h
      obtain ⟨-, entry, hentry, state, hstate, rfl⟩ := csiToCursorKey_some h
      exact .cursor hparse (fun _ => hfinal) hentry hstate
    | false =>
      rw [csiToKey_of_not p strings hfinal, csiFormat_of_parse hparse] at h
      obtain ⟨entry, hentry, rfl⟩ := Option.map_eq_some_iff.mp (Except.ok.inj h)
      exact .capability hparse hfinal hentry

theorem keyOrigin_of_single {p : Platform} {strings : KeyStrings} {x : List UInt8}
    {event : KeyEvent} (h : SingleKey p strings x event) : KeyOrigin p strings x event := by
  unfold SingleKey decodeKey at h
  rw [List.drop_zero] at h
  rcases parse_cases x with ⟨introducer, hmem, csi, n, hparse⟩ | hnone
  · rw [escToKey_of_parse hmem hparse] at h
    have hlong : 3 ≤ x.length := by
      obtain ⟨-, -, t, rfl⟩ := csiParse_eq_some_iff.mp hparse
      simp only [List.length_cons, List.length_append]
      omega
    cases hkey : keyOfSequence p strings introducer csi with
    | error fault =>
      rw [hkey] at h
      exact absurd h (by simp [Except.map, bind, Except.bind])
    | ok event? =>
      cases event? with
      | none =>
        -- a string of one byte is no sequence
        rw [hkey] at h
        have hbyte : ∃ b, byteAt x 0 = .ok b := ⟨x[0], by
          rw [byteAt, List.getElem?_eq_getElem (by omega)]⟩
        obtain ⟨b, hb⟩ := hbyte
        simp only [Except.map, ok_bind, hb] at h
        have hlen : 0 + 1 = x.length := (Prod.mk.inj (Except.ok.inj h)).2
        omega
      | some event' =>
        rw [hkey] at h
        have hpair : (some event', 0 + n) = (some event, x.length) := Except.ok.inj h
        obtain ⟨hevent, hlen⟩ := Prod.mk.inj hpair
        obtain rfl := Option.some.inj hevent
        rw [Nat.zero_add] at hlen
        exact keyOrigin_of_sequence hmem (hlen ▸ hparse) hkey
  · rw [escToKey_of_none hnone, ok_bind] at h
    cases x with
    | nil => exact absurd h (by simp [byteAt, bind, Except.bind])
    | cons b t =>
      have hpair : (charToKey b, 0 + 1) = (some event, (b :: t).length) := Except.ok.inj h
      obtain ⟨hkey, hlen⟩ := Prod.mk.inj hpair
      have hnil : t = [] := by
        apply List.eq_nil_of_length_eq_zero
        rw [List.length_cons] at hlen
        omega
      exact .char (congrArg (b :: ·) hnil) hkey

/-- The strings of a single key that is forwarded as it was reported. -/
structure Forwardable (strings : KeyStrings) (x : List UInt8) : Prop where
  /-- A byte with the high bit is a character without a modifier of its own. -/
  char : ∀ b, x = [b] → b < 0x80 ∨ isPlain (b &&& 0x7F) = true
  /-- The entry that a sequence is found at is not Delete, and it is a key with a string of its own or
  its whole string is the sequence. -/
  capability : ∀ csi, csiParse x 0x5B = some (csi, x.length) → isSs3Final csi.final = false →
    ∀ entry, capEntry strings x = some entry →
      entry.1 ≠ .keyDc ∧ (hasOwnString entry.1 = true ∨ strings entry.1 = some x)

theorem csiParse_singleton (b introducer : UInt8) : csiParse [b] introducer = none := by
  simp [csiParse]

/-- **The keys that come back as they were reported.** -/
theorem forwards_iff {p : Platform} {strings : KeyStrings} {x : List UInt8} {event : KeyEvent}
    (h : SingleKey p strings x event) : Forwards p strings event ↔ Forwardable strings x := by
  cases keyOrigin_of_single h with
  | @char b _ hx hkey =>
    subst hx
    rw [forwards_char_iff p strings hkey]
    constructor
    · intro hbyte
      refine ⟨fun b' hb' => ?_, fun csi hparse => ?_⟩
      · rwa [← (List.cons.inj hb').1]
      · rw [csiParse_singleton] at hparse
        exact absurd hparse (by simp)
    · exact fun hx => hx.char b rfl
  | @cursor introducer csi entry state hparse hfinal hentry hstate =>
    refine iff_of_true (forwards_cursor p strings hentry hstate) ⟨?_, ?_⟩
    · rintro b rfl
      rw [csiParse_singleton] at hparse
      exact absurd hparse (by simp)
    · intro csi' hparse' hnot
      -- with the introducer `[` it is the same sequence, and a cursor key
      by_cases hintro : introducer = 0x5B
      · subst hintro
        obtain ⟨rfl, -⟩ := Prod.mk.inj (Option.some.inj (hparse.symm.trans hparse'))
        exact absurd (hfinal rfl) (by simp [hnot])
      · have hnone := csiParse_of_parse hparse (Ne.symm hintro)
        exact absurd (hparse'.symm.trans hnone) (by simp)
  | @capability csi entry hparse hfinal hentry =>
    rw [forwards_capability_iff p strings hparse hentry h]
    constructor
    · intro hcap
      refine ⟨?_, ?_⟩
      · rintro b rfl
        rw [csiParse_singleton] at hparse
        exact absurd hparse (by simp)
      · intro csi' _ _ entry' hentry'
        obtain rfl : entry = entry' := Option.some.inj (hentry.symm.trans hentry')
        exact hcap
    · exact fun hx => hx.capability csi hparse hfinal entry hentry

/-- A capital letter. -/
theorem forwards_iff_capital :
    Forwards .x86_64 (fun _ => none) ⟨0x41, fepShiftMask⟩ ↔
      Forwardable (fun _ => none) [0x41] :=
  forwards_iff (show SingleKey .x86_64 (fun _ => none) [0x41] ⟨0x41, fepShiftMask⟩ from rfl)

/-- `ESC [ 3 ~` is Delete, which is sent back without a final byte. -/
theorem not_forwards_delete_key :
    ¬ ∀ (p : Platform) (strings : KeyStrings) (x : List UInt8) (event : KeyEvent),
      SingleKey p strings x event → Forwards p strings event := by
  intro hall
  have hsingle : SingleKey .x86_64 (fun cap => if cap = .keyDc then some [escape, 0x5B, 0x33, 0x7E]
      else none) [escape, 0x5B, 0x33, 0x7E] ⟨fepDelete, 0⟩ := by
    unfold SingleKey
    decide
  exact not_forwards_delete _ _ (hall _ _ _ _ hsingle)

end LibFep
