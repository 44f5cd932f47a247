import LibFep.Input.KeyDecode

/-!
# LibFep — the assertion on the parameters of a cursor key

`_fep_get_state_from_cursor` asserts that the second of two parameters is a number. The parser lets any
byte from `0` to `?` be a parameter, and digit strings of any length.

* **`escToKey_error_iff`** — the sequences that fail the assertion.
* **`escToKey_ne_assertion_iff`** — the strings and positions at which it holds.
-/

namespace LibFep

open Lib

/-- The sequences that are taken for cursor keys. -/
def isCursorSequence (introducer final : UInt8) : Bool :=
  if introducer = 0x6F then isEtermFinal final
  else (introducer == 0x4F || introducer == 0x5B) && isSs3Final final

theorem csiToCursorKey_error_iff (p : Platform) {csi : FepCSI}
    (h : ∀ b ∈ csi.params, isParam b = true) :
    csiToCursorKey p csi = .error .assertion ↔
      isSs3Final csi.final = true ∧ ¬ SecondParamPasses p csi.params := by
  cases hfinal : isSs3Final csi.final with
  | false =>
    rw [csiToCursorKey_of_not p hfinal]
    simp
  | true =>
    obtain ⟨keyval, -, hkey⟩ := csiToCursorKey_of_final p hfinal
    rw [hkey]
    rcases getStateFromCursor_cases p h with ⟨hpass, state, hstate⟩ | ⟨hfail, hstate⟩
    · rw [hstate]
      simp [Except.map, hpass]
    · rw [hstate]
      simp [Except.map, hfail]

theorem csiToKey_error_iff (p : Platform) (strings : KeyStrings) {csi : FepCSI}
    (h : ∀ b ∈ csi.params, isParam b = true) :
    csiToKey p strings csi = .error .assertion ↔
      isSs3Final csi.final = true ∧ ¬ SecondParamPasses p csi.params := by
  cases hfinal : isSs3Final csi.final with
  | false =>
    rw [csiToKey_of_not p strings hfinal]
    simp
  | true => rw [csiToKey_of_cursor p strings hfinal, csiToCursorKey_error_iff p h, hfinal]

theorem isSs3Final_toUpper {c : UInt8} (h : isEtermFinal c = true) :
    isSs3Final (toUpper c) = true := by
  simp only [isEtermFinal, List.contains_iff_mem, List.mem_cons, List.not_mem_nil, or_false] at h
  rcases h with rfl | rfl | rfl | rfl <;> decide

theorem keyOfSequence_error_iff (p : Platform) (strings : KeyStrings) {introducer : UInt8}
    {csi : FepCSI} (hmem : introducer ∈ keyIntroducers)
    (h : ∀ b ∈ csi.params, isParam b = true) :
    keyOfSequence p strings introducer csi = .error .assertion ↔
      isCursorSequence introducer csi.final = true ∧ ¬ SecondParamPasses p csi.params := by
  simp only [keyIntroducers, List.mem_cons, List.not_mem_nil, or_false] at hmem
  rcases hmem with rfl | rfl | rfl
  · rw [keyOfSequence_ss3, show isCursorSequence 0x4F csi.final = isSs3Final csi.final from rfl]
    split
    · exact csiToCursorKey_error_iff p h
    · next hfinal => simp [hfinal]
  · rw [keyOfSequence_eterm, show isCursorSequence 0x6F csi.final = isEtermFinal csi.final from rfl]
    split
    · next hfinal =>
      have hiff := @csiToCursorKey_error_iff p { csi with final := toUpper csi.final } h
      rw [hiff]
      simp [hfinal, isSs3Final_toUpper hfinal]
    · next hfinal => simp [hfinal]
  · rw [keyOfSequence_csi, show isCursorSequence 0x5B csi.final = isSs3Final csi.final from rfl]
    exact csiToKey_error_iff p strings h

/-- **The strings that fail the assertion** start with a cursor key of which the second of two parameters
is no number, or one that is too large. -/
theorem escToKey_error_iff (p : Platform) (strings : KeyStrings) (str : List UInt8) :
    escToKey p strings str = .error .assertion ↔
      ∃ introducer ∈ keyIntroducers, ∃ csi n, csiParse str introducer = some (csi, n) ∧
        isCursorSequence introducer csi.final = true ∧ ¬ SecondParamPasses p csi.params := by
  have hmap {α β : Type} (x : Except Fault α) (f : α → β) :
      x.map f = .error .assertion ↔ x = .error .assertion := by
    cases x <;> simp [Except.map]
  rcases parse_cases str with ⟨introducer, hmem, csi, n, hparse⟩ | hnone
  · have hparams := (csiParse_eq_some_iff.mp hparse).1.params
    rw [escToKey_of_parse hmem hparse, hmap, keyOfSequence_error_iff p strings hmem hparams]
    constructor
    · intro hfail
      exact ⟨introducer, hmem, csi, n, hparse, hfail⟩
    · rintro ⟨introducer', -, csi', n', hparse', hfail⟩
      by_cases hsame : introducer' = introducer
      · subst hsame
        obtain ⟨rfl, -⟩ := Prod.mk.inj (Option.some.inj (hparse.symm.trans hparse'))
        exact hfail
      · exact absurd (hparse'.symm.trans (csiParse_of_parse hparse hsame)) (by simp)
  · rw [escToKey_of_none hnone]
    refine iff_of_false (by simp) ?_
    rintro ⟨introducer, hmem, csi, n, hparse, -⟩
    exact absurd (hparse.symm.trans (hnone introducer hmem)) (by simp)

/-- If a string starts with a cursor key of two parameters, the second is a number that an
`unsigned long` holds, or empty. -/
def CursorParamsPass (p : Platform) (str : List UInt8) : Prop :=
  ∀ introducer params intermediates final rest,
    str = escape :: introducer :: (params ++ (intermediates ++ final :: rest)) →
    (∀ b ∈ params, isParam b = true) → (∀ b ∈ intermediates, isIntermediate b = true) →
    isCursorSequence introducer final = true → SecondParamPasses p params

theorem isCursorSequence_spec {introducer final : UInt8}
    (h : isCursorSequence introducer final = true) :
    introducer ∈ keyIntroducers ∧ isParam final = false ∧ isIntermediate final = false := by
  have hletter : ∀ c : UInt8, isSs3Final c = true ∨ isEtermFinal c = true →
      isParam c = false ∧ isIntermediate c = false := by
    intro c hc
    simp only [isSs3Final, isEtermFinal, List.contains_iff_mem, List.mem_cons, List.not_mem_nil,
      or_false] at hc
    rcases hc with (rfl | rfl | rfl | rfl | rfl | rfl) | rfl | rfl | rfl | rfl <;> decide
  unfold isCursorSequence at h
  split at h
  · next hintro => exact ⟨by simp [keyIntroducers, hintro], hletter final (Or.inr h)⟩
  · simp only [Bool.and_eq_true, Bool.or_eq_true, beq_iff_eq] at h
    refine ⟨?_, hletter final (Or.inl h.2)⟩
    rcases h.1 with rfl | rfl <;> simp [keyIntroducers]

/-- **Where `_fep_esc_to_key` passes the assertion**: at the positions that no cursor key with another
second parameter starts at. -/
theorem escToKey_ne_assertion_iff (p : Platform) (strings : KeyStrings) (buf : List UInt8) (i : Nat) :
    escToKey p strings (buf.drop i) ≠ .error .assertion ↔ CursorParamsPass p (buf.drop i) := by
  rw [ne_eq, escToKey_error_iff]
  constructor
  · intro hno introducer params intermediates final rest hstr hparams hinter hcursor
    by_contra hfail
    obtain ⟨hmem, hparam, hintermediate⟩ := isCursorSequence_spec hcursor
    have hparse : csiParse (buf.drop i) introducer =
        some (⟨params, intermediates, final⟩, params.length + intermediates.length + 3) :=
      csiParse_eq_some_iff.mpr
        ⟨⟨hparams, hinter, fun _ => hparam, hintermediate⟩, rfl, rest, hstr⟩
    exact hno ⟨introducer, hmem, _, _, hparse, hcursor, hfail⟩
  · rintro hpass ⟨introducer, -, csi, n, hparse, hcursor, hfail⟩
    obtain ⟨hcsi, -, t, hstr⟩ := csiParse_eq_some_iff.mp hparse
    exact hfail (hpass introducer csi.params csi.intermediate csi.final t hstr hcsi.params
      hcsi.intermediate hcursor)

/-- `ESC [ 1 ; ? A`, a cursor key with a private parameter. -/
theorem escToKey_assertion_private :
    ¬ ∀ (p : Platform) (strings : KeyStrings) (buf : List UInt8) (i : Nat),
      escToKey p strings (buf.drop i) ≠ .error .assertion := by
  intro hall
  have hsplit : strsplit [0x31, 0x3B, 0x3F] [0x3B] (by simp) = [[0x31], [0x3F]] := by
    rw [show ([0x31, 0x3B, 0x3F] : List UInt8) = [0x31] ++ 0x3B :: [0x3F] from rfl,
      strsplit_append (by decide), strsplit_of_not_mem (by decide), if_neg (by decide)]
  refine hall .x86_64 (fun _ => none) [escape, 0x5B, 0x31, 0x3B, 0x3F, 0x41] 0 ?_
  refine (escToKey_error_iff _ _ _).mpr
    ⟨0x5B, by decide, ⟨[0x31, 0x3B, 0x3F], [], 0x41⟩, 6, by decide, by decide, ?_⟩
  intro hpass
  have hdigit := (hpass _ _ hsplit).1 0x3F (by decide)
  exact absurd hdigit (by decide)

end LibFep
