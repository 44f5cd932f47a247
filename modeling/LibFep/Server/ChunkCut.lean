import LibFep.Server.ClearScreen

/-!
# LibFep — where the child's output is cut

`find_match_end` and the cut that `main_loop` of `fep/fep.c` makes behind the last sequence that clears the
screen, in terms of occurrences in the bytes that were read.

* **`findMatchEnd_eq_some_iff`** — `find_match_end` finds the end of the last occurrence.
* **`findMatchEnd_ptyCalls`** — with it, the parts that the calls write are the chunk again, and the last of
  them holds no occurrence of either sequence.
-/

namespace LibFep

open Lib

/-- The needle occurs in the haystack and ends `e` bytes behind its start. -/
def OccursTo (needle haystack : List UInt8) (e : Nat) : Prop :=
  ∃ front behind, haystack = front ++ (needle ++ behind) ∧ e = front.length + needle.length

/-- `e` is the end of the last occurrence. -/
def LastEnd (needle haystack : List UInt8) (e : Nat) : Prop :=
  OccursTo needle haystack e ∧ ∀ e', OccursTo needle haystack e' → e' ≤ e

theorem occursTo_iff_foundAt {needle haystack : List UInt8} (hne : needle ≠ []) {e : Nat} :
    OccursTo needle haystack e ↔ FoundAt needle haystack e := by
  rw [foundAt_iff_of_ne_nil hne]
  constructor
  · rintro ⟨front, behind, rfl, rfl⟩
    refine ⟨by simp, front, ?_⟩
    rw [← List.append_assoc, ← List.length_append, List.take_left]
  · rintro ⟨he, front, hfront⟩
    refine ⟨front, haystack.drop e, ?_, ?_⟩
    · rw [← List.append_assoc, hfront, List.take_append_drop]
    · rw [← List.length_append, hfront, List.length_take_of_le he]

theorem LastEnd.unique {needle haystack : List UInt8} {e e' : Nat} (h : LastEnd needle haystack e)
    (h' : LastEnd needle haystack e') : e = e' :=
  Nat.le_antisymm (h'.2 e h.1) (h.2 e' h'.1)

theorem findMatchEnd_eq_none_iff_occursTo {needle haystack : List UInt8} (hne : needle ≠ []) :
    findMatchEnd haystack needle = none ↔ ∀ e, ¬ OccursTo needle haystack e := by
  rw [findMatchEnd_eq_none_iff]
  exact forall_congr' fun e => not_congr (occursTo_iff_foundAt hne).symm

/-- **`find_match_end` finds the last end.** -/
theorem findMatchEnd_eq_some_iff {needle haystack : List UInt8} (hne : needle ≠ []) {e : Nat} :
    findMatchEnd haystack needle = some e ↔ LastEnd needle haystack e := by
  have hlast {e : Nat} (h : findMatchEnd haystack needle = some e) : LastEnd needle haystack e := by
    obtain ⟨hfound, hlast⟩ := findMatchEnd_eq_some h
    exact ⟨(occursTo_iff_foundAt hne).mpr hfound,
      fun e' he' => hlast e' ((occursTo_iff_foundAt hne).mp he')⟩
  refine ⟨hlast, ?_⟩
  intro h
  cases hfind : findMatchEnd haystack needle with
  | none => exact absurd h.1 ((findMatchEnd_eq_none_iff_occursTo hne).mp hfind e)
  | some e' => exact congrArg some ((hlast hfind).unique h)

/-! ## The parts -/

/-- What a call writes of the child's output. -/
def PtyCall.text? : PtyCall → Option (List UInt8)
  | .stringFromPty str strLen => some (str.take strLen)
  | .statusText => none

/-- The parts of a chunk that are written, one after the other. -/
def ptyParts (strings : ClearStrings) (chunk : List UInt8) : List (List UInt8) :=
  (ptyCalls strings chunk).filterMap PtyCall.text?

/-- The parts are the chunk as a whole, or what is before and behind the end that was found. -/
theorem ptyParts_eq (strings : ClearStrings) (chunk : List UInt8) :
    ptyParts strings chunk =
      match matchEnd strings chunk with
      | some e => [chunk.take e, chunk.drop e]
      | none => [chunk] := by
  unfold ptyParts ptyCalls
  cases hend : matchEnd strings chunk with
  | none => simp [PtyCall.text?]
  | some e =>
    have hle := le_length_of_matchEnd hend
    have hfirst : chunk.length - (chunk.length - e) = e := by omega
    show [chunk.take (chunk.length - (chunk.length - e)),
      (chunk.drop e).take (chunk.length - e)] = _
    rw [hfirst, ← List.length_drop, List.take_length]

/-- An occurrence behind a place of the chunk, as one of the chunk. -/
theorem OccursTo.of_drop {needle chunk : List UInt8} {n e : Nat} (hn : n ≤ chunk.length)
    (h : OccursTo needle (chunk.drop n) e) : OccursTo needle chunk (n + e) := by
  obtain ⟨front, behind, hdrop, rfl⟩ := h
  refine ⟨chunk.take n ++ front, behind, ?_, ?_⟩
  · rw [List.append_assoc, ← hdrop, List.take_append_drop]
  · rw [List.length_append, List.length_take_of_le hn, Nat.add_assoc]

/-- An occurrence does not end where it starts. -/
theorem OccursTo.pos {needle haystack : List UInt8} {e : Nat} (hne : needle ≠ [])
    (h : OccursTo needle haystack e) : 0 < e := by
  obtain ⟨front, behind, -, rfl⟩ := h
  have hpos := List.length_pos_iff.mpr hne
  omega

/-- The sequences that clear the screen are not there. -/
def FreeOf (strings : ClearStrings) (part : List UInt8) : Prop :=
  ∀ e, ¬ OccursTo strings.clearScreen part e ∧ ¬ OccursTo strings.clrEos part e

theorem freeOf_last {strings : ClearStrings} (hclear : strings.clearScreen ≠ [])
    (heos : strings.clrEos ≠ []) (chunk : List UInt8) :
    ∀ last ∈ (ptyParts strings chunk).getLast?, FreeOf strings last := by
  have hfound (e : Nat) : strings.FoundAt chunk e ↔
      OccursTo strings.clearScreen chunk e ∨ OccursTo strings.clrEos chunk e :=
    or_congr (occursTo_iff_foundAt hclear).symm (occursTo_iff_foundAt heos).symm
  rw [ptyParts_eq]
  cases hend : matchEnd strings chunk with
  | none =>
    intro last hlast e
    obtain rfl := Option.some.inj hlast
    have hnone := matchEnd_eq_none_iff.mp hend e
    rw [hfound] at hnone
    exact not_or.mp hnone
  | some n =>
    obtain ⟨-, hlater⟩ := matchEnd_eq_some hend
    have hle := le_length_of_matchEnd hend
    intro last hlast e
    obtain rfl := Option.some.inj hlast
    -- an occurrence in the second part ends behind the last end
    constructor
    · intro h
      have hpos := h.pos hclear
      have := hlater (n + e) ((hfound (n + e)).mpr (Or.inl (h.of_drop hle)))
      omega
    · intro h
      have hpos := h.pos heos
      have := hlater (n + e) ((hfound (n + e)).mpr (Or.inr (h.of_drop hle)))
      omega

/-- **`find_match_end` returns the end of the last occurrence, or `NULL` if there is none**, for any haystack
and any needle that is not empty. The parts of a chunk that `main_loop` writes are, one or two of them, the
chunk again, two where a sequence occurs in it, and the last one holds neither sequence. -/
theorem findMatchEnd_ptyCalls :
    (∀ haystack needle : List UInt8, needle ≠ [] →
      (∀ e, findMatchEnd haystack needle = some e ↔ LastEnd needle haystack e) ∧
      (findMatchEnd haystack needle = none ↔ ∀ e, ¬ OccursTo needle haystack e)) ∧
    ∀ (strings : ClearStrings) (chunk : List UInt8),
      strings.clearScreen ≠ [] → strings.clrEos ≠ [] →
      (ptyParts strings chunk).flatten = chunk ∧
      (∀ last ∈ (ptyParts strings chunk).getLast?, FreeOf strings last) ∧
      ((ptyParts strings chunk).length = 2 ∨
        ptyParts strings chunk = [chunk] ∧ FreeOf strings chunk) := by
  constructor
  · intro haystack needle hne
    exact ⟨fun e => findMatchEnd_eq_some_iff hne, findMatchEnd_eq_none_iff_occursTo hne⟩
  · intro strings chunk hclear heos
    have hlast := freeOf_last hclear heos chunk
    refine ⟨?_, hlast, ?_⟩
    · rw [ptyParts_eq]
      cases matchEnd strings chunk with
      | none => simp
      | some e => simp
    · rw [ptyParts_eq] at hlast ⊢
      cases hend : matchEnd strings chunk with
      | none =>
        rw [hend] at hlast
        exact Or.inr ⟨rfl, hlast chunk rfl⟩
      | some e => exact Or.inl rfl

/-- Overlapping matches of `ESC ESC [`, and `ESC [ J` behind another byte. -/
theorem findMatchEnd_ptyCalls_overlap :
    (findMatchEnd [0x1B, 0x1B, 0x1B, 0x5B] [0x1B, 0x1B, 0x5B] = some 4 ↔
      LastEnd [0x1B, 0x1B, 0x5B] [0x1B, 0x1B, 0x1B, 0x5B] 4) ∧
    (ptyParts ⟨[0x1B, 0x1B, 0x5B], [0x4A]⟩ [0x41, 0x4A, 0x42]).flatten = [0x41, 0x4A, 0x42] :=
  ⟨(findMatchEnd_ptyCalls.1 [0x1B, 0x1B, 0x1B, 0x5B] [0x1B, 0x1B, 0x5B] (by simp)).1 4,
    (findMatchEnd_ptyCalls.2 ⟨[0x1B, 0x1B, 0x5B], [0x4A]⟩ [0x41, 0x4A, 0x42]
      (by simp) (by simp)).1⟩

end LibFep
