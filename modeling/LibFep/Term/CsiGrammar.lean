import LibFep.Term.CsiScan

/-!
# LibFep — the grammar of CSI sequences, and the parse and the scan

`_fep_csi_parse` and `_fep_csi_scan` of `fep/csi.c` read the same grammar with loops of their own. The
scan looks at the final byte, and the parse takes whatever byte stands there.

* **`csiGrammar_iff`** — the strings on which both agree with the grammar and with each other.
* **`csiParse_csiFormat`** — parse and format are inverse to each other.
-/

namespace LibFep

open Lib

/-- The string has a prefix `ESC c P* I* F` of `n` bytes. -/
def HasSequence (introducer : UInt8) (str : List UInt8) (n : Nat) : Prop :=
  ∃ params intermediates final t,
    str = escape :: introducer :: (params ++ (intermediates ++ final :: t)) ∧
      (∀ b ∈ params, isParam b = true) ∧ (∀ b ∈ intermediates, isIntermediate b = true) ∧
      isFinal final = true ∧ n = params.length + intermediates.length + 3

/-- The parse of a string and the scan of it read the same grammar. -/
structure ReadsGrammar (p : Platform) (str : List UInt8) : Prop where
  accepts : ∀ introducer n,
    (∃ csi, csiParse str introducer = some (csi, n)) ↔ HasSequence introducer str n
  parses_found : ∀ final start len, csiScan p str final = .found start len →
    ∃ csi, csiParse ((str.drop start).take len) 0x5B = some (csi, len)
  finds_parsed : ∀ csi n, csiParse str 0x5B = some (csi, n) →
    csiScan p str csi.final = .found 0 n

/-- Where a byte stands behind ESC, a byte and the parameter and intermediate bytes, it is a final
byte. -/
def FinalInRange (str : List UInt8) : Prop :=
  ∀ introducer rest, str = escape :: introducer :: rest →
    ∀ f ∈ ((rest.dropWhile isParam).dropWhile isIntermediate).head?, isFinal f = true

/-! ## The parse -/

/-- The byte that the parse takes for the final byte. -/
theorem head?_of_csiParse {introducer : UInt8} {rest : List UInt8} {csi : FepCSI} {n : Nat}
    (h : csiParse (escape :: introducer :: rest) introducer = some (csi, n)) :
    ((rest.dropWhile isParam).dropWhile isIntermediate).head? = some csi.final := by
  rw [csiParse_cons] at h
  cases hdrop : (rest.dropWhile isParam).dropWhile isIntermediate with
  | nil =>
    rw [hdrop] at h
    exact absurd h (by simp)
  | cons f t =>
    rw [hdrop] at h
    obtain ⟨rfl, -⟩ := Prod.mk.inj (Option.some.inj h)
    rfl

theorem FinalInRange.isFinal_of_parse {str : List UInt8} (hstr : FinalInRange str)
    {introducer : UInt8} {csi : FepCSI} {n : Nat} (h : csiParse str introducer = some (csi, n)) :
    isFinal csi.final = true := by
  obtain ⟨-, -, t, rfl⟩ := csiParse_eq_some_iff.mp h
  exact hstr introducer _ rfl csi.final (head?_of_csiParse h)

theorem hasSequence_of_parse {introducer : UInt8} {str : List UInt8} {csi : FepCSI} {n : Nat}
    (h : csiParse str introducer = some (csi, n)) (hfinal : isFinal csi.final = true) :
    HasSequence introducer str n := by
  obtain ⟨hcsi, hn, t, hstr⟩ := csiParse_eq_some_iff.mp h
  exact ⟨csi.params, csi.intermediate, csi.final, t, hstr, hcsi.params, hcsi.intermediate, hfinal, hn⟩

theorem HasSequence.exists_parse {introducer : UInt8} {str : List UInt8} {n : Nat}
    (h : HasSequence introducer str n) :
    ∃ csi, csiParse str introducer = some (csi, n) ∧ isFinal csi.final = true := by
  obtain ⟨params, intermediates, final, t, hstr, hparams, hintermediates, hfinal, hn⟩ := h
  have hcsi : FepCSI.WellFormed ⟨params, intermediates, final⟩ :=
    ⟨hparams, hintermediates, fun _ => not_isParam_of_isFinal hfinal,
      not_isIntermediate_of_isFinal hfinal⟩
  exact ⟨⟨params, intermediates, final⟩, csiParse_eq_some_iff.mpr ⟨hcsi, hn, t, hstr⟩, hfinal⟩

/-- A parsed sequence with a final byte, as a control sequence at the start of the string. -/
theorem exists_sequence_of_parse {str : List UInt8} {csi : FepCSI} {n : Nat}
    (h : csiParse str 0x5B = some (csi, n)) (hfinal : isFinal csi.final = true) :
    ∃ s : ControlSequence, s.bytes <+: str ∧ s.final = csi.final ∧ s.length = n := by
  obtain ⟨hcsi, hn, t, rfl⟩ := csiParse_eq_some_iff.mp h
  let s : ControlSequence :=
    ⟨csi.params, csi.intermediate, csi.final, hcsi.params, hcsi.intermediate, hfinal⟩
  exact ⟨s, ⟨t, s.bytes_append t⟩, rfl, hn.symm⟩

/-! ## The scan -/

/-- What the scan finds is a control sequence, for any final byte that it looks for. Induction on the
rounds of the loop. -/
theorem exists_of_csiScanLoop_found {p : Platform} {final : UInt8} {i : Nat} {l : List UInt8}
    {start len : Nat} (h : csiScanLoop p final i l = .found start len) :
    ∃ a t, ∃ s : ControlSequence, l = a ++ (s.bytes ++ t) ∧ start = i + a.length ∧
      len = s.length ∧ finalMatches p final s.final = true := by
  fun_induction csiScanLoop p final i l with
  | case1 i l hl => exact absurd h (by simp)
  | case2 i l e hl => exact absurd h (by simp)
  | case3 i l e rest place hrest hl => exact absurd h (by simp)
  | case4 i l e rest place f t hrest passed hf hl =>
    -- a sequence: the bytes passed over are its parts
    rw [Bool.and_eq_true] at hf
    obtain ⟨s, hfinal, hs⟩ := exists_sequence_of_dropWhile hrest hf.2
    obtain ⟨a, ha, halen, -⟩ := exists_eq_append_escape hl
    have hlen := length_of_sequence_append hs
    obtain ⟨hplace, hpassed⟩ := CsiScan.found.inj h
    refine ⟨a, t, s, hs ▸ ha, ?_, ?_, hfinal ▸ hf.1⟩
    · rw [← hplace, halen]
      rfl
    · exact hpassed.symm.trans hlen
  | case5 i l e rest place f t hrest passed hf hl ih =>
    obtain ⟨a, c, hl', -, -, -, hplace⟩ := exists_passed hl hrest i
    obtain ⟨a', t', s, hs, hstart, hlen⟩ := ih h
    have hplace : place + passed = i + (a ++ escape :: 0x5B :: c).length := hplace
    refine ⟨(a ++ escape :: 0x5B :: c) ++ a', t', s, ?_, ?_, hlen⟩
    · rw [List.append_assoc, ← hs]
      exact hl'
    · rw [hstart, hplace, @List.length_append _ _ a', Nat.add_assoc]
  | case6 i l e c rest hl place hc ih =>
    -- ESC without the introducer
    obtain ⟨a, ha, halen, -⟩ := exists_eq_append_escape hl
    obtain ⟨a', t', s, hs, hstart, hlen⟩ := ih h
    have hplace : place = i + a.length := by
      rw [halen]
      rfl
    refine ⟨a ++ escape :: a', t', s, ?_, ?_, hlen⟩
    · rw [ha, hs]
      simp
    · rw [hstart, hplace, List.length_append, List.length_cons]
      omega

/-- A slice that the scan reports is a whole control sequence. -/
theorem exists_slice_of_found {p : Platform} {final : UInt8} {str : List UInt8} {start len : Nat}
    (h : csiScan p str final = .found start len) :
    ∃ s : ControlSequence, (str.drop start).take len = s.bytes ∧ len = s.length := by
  obtain ⟨a, t, s, rfl, hstart, hlen, -⟩ := exists_of_csiScanLoop_found h
  rw [Nat.zero_add] at hstart
  refine ⟨s, ?_, hlen⟩
  rw [hstart, List.drop_left, hlen, ← s.length_bytes, List.take_left]

/-- The scan for the final byte of the sequence that a string starts with. -/
theorem csiScan_of_isPrefix (p : Platform) {str : List UInt8} {s : ControlSequence}
    (h : s.bytes <+: str) : csiScan p str s.final = .found 0 s.length := by
  apply (csiScan_report p s.final_ok str).found 0 s
  exact ⟨h, rfl, fun j hj => absurd hj (Nat.not_lt_zero j)⟩

/-! ## Both -/

theorem readsGrammar_of_finalInRange (p : Platform) {str : List UInt8} (hstr : FinalInRange str) :
    ReadsGrammar p str where
  accepts introducer n := by
    constructor
    · rintro ⟨csi, h⟩
      exact hasSequence_of_parse h (hstr.isFinal_of_parse h)
    · intro h
      obtain ⟨csi, hcsi, -⟩ := h.exists_parse
      exact ⟨csi, hcsi⟩
  parses_found final start len h := by
    obtain ⟨s, hs, rfl⟩ := exists_slice_of_found h
    have hparse := csiParse_bytes s []
    rw [List.append_nil] at hparse
    exact ⟨_, hs ▸ hparse⟩
  finds_parsed csi n h := by
    obtain ⟨s, hs, hfinal, rfl⟩ := exists_sequence_of_parse h (hstr.isFinal_of_parse h)
    exact hfinal ▸ csiScan_of_isPrefix p hs

/-- **Parse, scan and grammar agree on a string** exactly where the byte that the parse takes for the
final byte is one. -/
theorem csiGrammar_iff (p : Platform) (str : List UInt8) :
    ReadsGrammar p str ↔ FinalInRange str := by
  refine ⟨?_, readsGrammar_of_finalInRange p⟩
  rintro h introducer rest rfl f hf
  cases hdrop : (rest.dropWhile isParam).dropWhile isIntermediate with
  | nil =>
    rw [hdrop] at hf
    exact absurd hf (by simp)
  | cons f' t =>
    -- the parse accepts the string, so that the grammar must
    have hparse := csiParse_cons introducer rest
    rw [hdrop] at hparse hf
    obtain ⟨csi, hcsi, hfinal⟩ := ((h.accepts introducer _).mp ⟨_, hparse⟩).exists_parse
    obtain ⟨rfl, -⟩ := Prod.mk.inj (Option.some.inj (hparse.symm.trans hcsi))
    rw [List.head?_cons, Option.mem_some_iff] at hf
    exact hf ▸ hfinal

/-- `ESC [ 3` and a control character: the parse takes it for the final byte. -/
theorem not_readsGrammar_control : ¬ ReadsGrammar .x86_64 [escape, 0x5B, 0x33, 0x01] := by
  intro h
  have hparse : csiParse [escape, 0x5B, 0x33, 0x01] 0x5B = some (⟨[0x33], [], 0x01⟩, 4) := by decide
  obtain ⟨csi, hcsi, hfinal⟩ := ((h.accepts 0x5B 4).mp ⟨_, hparse⟩).exists_parse
  obtain ⟨rfl, -⟩ := Prod.mk.inj (Option.some.inj (hparse.symm.trans hcsi))
  exact absurd hfinal (by decide)

/-! ## Parse and format -/

/-- **Parse and format are inverse to each other**: a formatted sequence is parsed to its parts whatever
bytes follow, and what was parsed is formatted as the bytes that the parse consumed. -/
theorem csiParse_csiFormat :
    (∀ csi : FepCSI, (∀ b ∈ csi.params, isParam b = true) →
      (∀ b ∈ csi.intermediate, isIntermediate b = true) → isFinal csi.final = true →
      ∀ t, csiParse (csiFormat csi ++ t) 0x5B = some (csi, (csiFormat csi).length)) ∧
    (∀ str csi n, csiParse str 0x5B = some (csi, n) → isFinal csi.final = true →
      csiFormat csi = str.take n) := by
  constructor
  · intro csi hparams hintermediate hfinal t
    let s : ControlSequence :=
      ⟨csi.params, csi.intermediate, csi.final, hparams, hintermediate, hfinal⟩
    have hlen : (csiFormat csi).length = s.length := s.length_bytes
    rw [hlen]
    exact csiParse_bytes s t
  · intro str csi n h _
    obtain ⟨-, hn, t, rfl⟩ := csiParse_eq_some_iff.mp h
    have hlen : (csiFormat csi).length = n := by
      rw [hn]
      simp only [csiFormat, FepCSI.length, List.length_cons, List.length_append, List.length_nil]
      omega
    have hstr : escape :: 0x5B :: (csi.params ++ (csi.intermediate ++ csi.final :: t)) =
        csiFormat csi ++ t := by
      simp [csiFormat]
    rw [hstr, ← hlen, List.take_left]

/-- `ESC [ 1 ; 7 SP m` with two bytes behind it. -/
theorem csiParse_csiFormat_title :
    csiParse (csiFormat ⟨[0x31, 0x3B, 0x37], [0x20], 0x6D⟩ ++ [0x6D, 0x31]) 0x5B =
        some (⟨[0x31, 0x3B, 0x37], [0x20], 0x6D⟩, 7) ∧
      csiFormat ⟨[0x31, 0x3B, 0x37], [0x20], 0x6D⟩ =
        [escape, 0x5B, 0x31, 0x3B, 0x37, 0x20, 0x6D] := by
  refine ⟨csiParse_csiFormat.1 ⟨[0x31, 0x3B, 0x37], [0x20], 0x6D⟩ ?_ ?_ rfl [0x6D, 0x31],
    csiParse_csiFormat.2 [escape, 0x5B, 0x31, 0x3B, 0x37, 0x20, 0x6D]
      ⟨[0x31, 0x3B, 0x37], [0x20], 0x6D⟩ 7 rfl rfl⟩
  · simp [isParam]
  · simp [isIntermediate]

end LibFep
