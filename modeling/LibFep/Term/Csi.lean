import LibFep.Lib.ControlSequence
import LibFep.Platform

/-!
# LibFep — scanning and parsing CSI sequences

`_fep_csi_scan`, `_fep_csi_parse` and `_fep_csi_format` of `fep/csi.c`. The first `len` bytes of
`str` are a list, and the pointers the functions return are offsets from `str`.

* **`found?_csiScan`** — the scan finds the first of the control sequences with the final byte.
* **`csiParse_eq_some_iff`** — what the parse accepts, for any introducer.
* **`csiParse_bytes`** — the parse of a control sequence gives its parts.
-/

namespace LibFep

open Lib

/-! ## `_fep_csi_scan` -/

/-- What `_fep_csi_scan` returns, with `*r_csi` and `*r_csi_len`. -/
inductive CsiScan where
  /-- `true`. -/
  | found (csi len : Nat)
  /-- `false`, with the sequence that the end of the string cuts off. -/
  | incomplete (csi len : Nat)
  /-- `false`, with `*r_csi == NULL`. -/
  | notFound
  deriving DecidableEq, Repr

/-- `final < 0 || c == final`, for a plain `char`. -/
def finalMatches (p : Platform) (final c : UInt8) : Bool :=
  (p.charSigned && 0x80 ≤ final) || c == final

/-- One round of the loop of `_fep_csi_scan` after the other, with `p - str = i` and `l` the bytes from
`p` on. -/
def csiScanLoop (p : Platform) (final : UInt8) (i : Nat) (l : List UInt8) : CsiScan :=
  match _ : l.dropWhile (· ≠ escape) with
  | [] => .notFound
  | [_] => .incomplete (i + (l.length - 1)) 1
  | _ :: c :: rest =>
    let start := i + (l.length - (rest.length + 2))
    if c = 0x5B then
      match _ : (rest.dropWhile isParam).dropWhile isIntermediate with
      -- also when nothing follows the introducer
      | [] => .incomplete start (2 + rest.length)
      | f :: t =>
        let len := 2 + (rest.length - (t.length + 1))
        if finalMatches p final f && isFinal f then .found start (len + 1)
        else csiScanLoop p final (start + len) (f :: t)
    else csiScanLoop p final (start + 1) (c :: rest)
  termination_by l.length
  decreasing_by
    all_goals
      have hlen := List.length_dropWhile_le (· ≠ escape) l
      simp_all only [List.length_cons]
    · have h1 := List.length_dropWhile_le isParam rest
      have h2 := List.length_dropWhile_le isIntermediate (rest.dropWhile isParam)
      simp_all only [List.length_cons]
      omega
    · omega

def csiScan (p : Platform) (str : List UInt8) (final : UInt8) : CsiScan := csiScanLoop p final 0 str

/-! ## `_fep_csi_parse` and `_fep_csi_format` -/

structure FepCSI where
  params : List UInt8
  intermediate : List UInt8
  final : UInt8
  deriving DecidableEq, Repr

/-- `_fep_csi_parse`, with the offset it puts in `*r_endptr`. The test for the end of the string before
the final byte repeats the one before it. -/
def csiParse (str : List UInt8) (introducer : UInt8) : Option (FepCSI × Nat) :=
  if str.length < 3 ∨ str[0]? ≠ some escape ∨ str[1]? ≠ some introducer then none
  else
    let start := str.drop 2
    let params := start.takeWhile isParam
    let start := start.dropWhile isParam
    -- premature CSI at P
    if start = [] then none
    else
      let intermediate := start.takeWhile isIntermediate
      match start.dropWhile isIntermediate with
      -- premature CSI at I
      | [] => none
      | final :: rest => some (⟨params, intermediate, final⟩, str.length - rest.length)

def csiFormat (csi : FepCSI) : List UInt8 :=
  escape :: 0x5B :: (csi.params ++ (csi.intermediate ++ [csi.final]))

/-! ## What the scan finds -/

def CsiScan.found? : CsiScan → Option (Nat × Nat)
  | .found csi len => some (csi, len)
  | _ => none

theorem finalMatches_iff {p : Platform} {final c : UInt8} (h : final < 0x80) :
    finalMatches p final c = true ↔ c = final := by
  have hnot : ¬ 0x80 ≤ final := UInt8.not_le.mpr h
  simp [finalMatches, hnot]

/-- The bytes between the introducer and what ends a sequence hold no ESC. -/
theorem exists_eq_append_of_dropWhile {rest t : List UInt8}
    (h : (rest.dropWhile isParam).dropWhile isIntermediate = t) :
    ∃ a, rest = a ++ t ∧ a.length = rest.length - t.length ∧ ∀ b ∈ a, b ≠ escape := by
  refine ⟨rest.takeWhile isParam ++ (rest.dropWhile isParam).takeWhile isIntermediate, ?_, ?_, ?_⟩
  · rw [List.append_assoc, ← h, List.takeWhile_append_dropWhile, List.takeWhile_append_dropWhile]
  · have h1 := congrArg List.length (List.takeWhile_append_dropWhile (p := isParam) (l := rest))
    have h2 := congrArg List.length (List.takeWhile_append_dropWhile (p := isIntermediate)
      (l := rest.dropWhile isParam))
    rw [List.length_append] at h1 h2 ⊢
    rw [h] at h2
    omega
  · intro b hb
    rcases List.mem_append.mp hb with hb | hb
    · rintro rfl
      exact absurd (List.mem_takeWhile_imp hb) (by decide)
    · rintro rfl
      exact absurd (List.mem_takeWhile_imp hb) (by decide)

/-- What `memchr` passes over, and the ESC it finds. -/
theorem exists_eq_append_escape {l t : List UInt8} {e : UInt8}
    (h : l.dropWhile (· ≠ escape) = e :: t) :
    ∃ a, l = a ++ escape :: t ∧ a.length = l.length - (t.length + 1) ∧ ∀ b ∈ a, b ≠ escape := by
  have happ := List.takeWhile_append_dropWhile (p := (· ≠ escape)) (l := l)
  rw [h] at happ
  have hlen := congrArg List.length happ
  rw [List.length_append, List.length_cons] at hlen
  have he : e = escape := by
    have hhead := List.head?_dropWhile_not (· ≠ escape) l
    rw [h] at hhead
    simpa using hhead
  subst he
  refine ⟨l.takeWhile (· ≠ escape), happ.symm, by omega, fun b hb => ?_⟩
  simpa using List.mem_takeWhile_imp hb

/-- What `memchr` passes over holds no sequence. -/
theorem occurrences_of_dropWhile (final : UInt8) (i : Nat) {l t : List UInt8} {e : UInt8}
    (h : l.dropWhile (· ≠ escape) = e :: t) :
    occurrences final i l =
      occurrences final (i + (l.length - (t.length + 1))) (escape :: t) := by
  obtain ⟨a, ha, hlen, hne⟩ := exists_eq_append_escape h
  rw [← hlen, ← occurrences_append_of_ne final hne, ← ha]

/-- No sequence with the final byte starts where the scan goes on. -/
theorem occurrences_escape_of_none {final : UInt8} {rest : List UInt8}
    (h : ∀ s, headSequence (escape :: rest) = some s → s.final ≠ final) (i : Nat) :
    occurrences final i (escape :: rest) = occurrences final (i + 1) rest := by
  refine occurrences_cons_of_none (matchAt_eq_none_iff.mpr ?_) i
  exact fun s hs => h s (headSequence_eq_some_iff.mpr hs)

/-- Where a final byte stops the scan, the bytes from the ESC on start with a sequence. -/
theorem exists_sequence_of_dropWhile {rest t : List UInt8} {f : UInt8}
    (h : (rest.dropWhile isParam).dropWhile isIntermediate = f :: t) (hf : isFinal f = true) :
    ∃ s : ControlSequence, s.final = f ∧ escape :: 0x5B :: rest = s.bytes ++ t := by
  refine ⟨⟨rest.takeWhile isParam, (rest.dropWhile isParam).takeWhile isIntermediate, f,
    fun _ hb => List.mem_takeWhile_imp hb, fun _ hb => List.mem_takeWhile_imp hb, hf⟩, rfl, ?_⟩
  simp only [ControlSequence.bytes, List.cons_append, List.append_assoc, List.nil_append, ← h,
    List.takeWhile_append_dropWhile]

/-- The bytes that the scan steps over are those of the sequence. -/
theorem length_of_sequence_append {rest t : List UInt8} {s : ControlSequence}
    (h : escape :: 0x5B :: rest = s.bytes ++ t) :
    2 + (rest.length - (t.length + 1)) + 1 = s.length := by
  have hlen := congrArg List.length h
  rw [List.length_append, s.length_bytes] at hlen
  simp only [List.length_cons] at hlen
  have hge : 3 ≤ s.length := by simp [ControlSequence.length]
  omega

/-- The sequence at the start of a string ends at the byte that stops the scan. -/
theorem final_of_headSequence {rest t : List UInt8} {f : UInt8} {s : ControlSequence}
    (h : (rest.dropWhile isParam).dropWhile isIntermediate = f :: t)
    (hs : headSequence (escape :: 0x5B :: rest) = some s) : s.final = f ∧ isFinal f = true := by
  simp only [headSequence, and_self, if_true, h] at hs
  split at hs
  · next hfinal =>
    rw [Option.some.injEq] at hs
    subst hs
    exact ⟨rfl, hfinal⟩
  · exact absurd hs (by simp)

theorem introducer_ne_escape {a : List UInt8} (h : ∀ b ∈ a, b ≠ escape) :
    ∀ b ∈ (0x5B : UInt8) :: a, b ≠ escape :=
  List.forall_mem_cons.mpr ⟨by decide, h⟩

/-- The bytes that a round passes over, up to the byte that ends the sequence, start with ESC and hold no
other one. -/
theorem exists_passed {l rest t : List UInt8} {e f : UInt8}
    (h : l.dropWhile (· ≠ escape) = e :: 0x5B :: rest)
    (hrest : (rest.dropWhile isParam).dropWhile isIntermediate = f :: t) (i : Nat) :
    ∃ a c, l = (a ++ escape :: 0x5B :: c) ++ f :: t ∧ rest = c ++ f :: t ∧
      (∀ b ∈ a, b ≠ escape) ∧ (∀ b ∈ c, b ≠ escape) ∧
      i + (l.length - (rest.length + 2)) + (2 + (rest.length - (t.length + 1))) =
        i + (a ++ escape :: 0x5B :: c).length := by
  obtain ⟨a, ha, halen, hane⟩ := exists_eq_append_escape h
  obtain ⟨c, hc, hclen, hcne⟩ := exists_eq_append_of_dropWhile hrest
  refine ⟨a, c, by rw [ha, hc]; simp, hc, hane, hcne, ?_⟩
  simp only [List.length_append, List.length_cons] at halen hclen ⊢
  omega

/-- **The scan finds the first sequence with the final byte.** Induction on the rounds of the loop:
the bytes a round passes over hold no ESC but the one it starts at. -/
theorem found?_csiScanLoop (p : Platform) {final : UInt8} (hfinal : final < 0x80) (i : Nat)
    (l : List UInt8) :
    (csiScanLoop p final i l).found? =
      (occurrences final i l).head?.map fun o => (o.1, o.2.length) := by
  fun_induction csiScanLoop p final i l with
  | case1 i l h =>
    -- no ESC is left
    have hne : ∀ b ∈ l, b ≠ escape := by simpa [List.dropWhile_eq_nil_iff] using h
    rw [occurrences_of_ne final hne]
    rfl
  | case2 i l e h =>
    -- ESC is the last byte
    rw [occurrences_of_dropWhile final i h]
    rfl
  | case3 i l e rest start hrest h =>
    -- the end of the string cuts the sequence off
    obtain ⟨a, ha, -, hne⟩ := exists_eq_append_of_dropWhile hrest
    rw [occurrences_of_dropWhile final i h, occurrences_escape_of_none, occurrences_of_ne]
    · rfl
    · rw [ha, List.append_nil]
      exact introducer_ne_escape hne
    · intro s hs
      simp [headSequence, hrest] at hs
  | case4 i l e rest start f t hrest len hf h =>
    -- a sequence: the bytes passed over are its parts
    rw [Bool.and_eq_true, finalMatches_iff hfinal] at hf
    obtain ⟨s, hs, hl⟩ := exists_sequence_of_dropWhile hrest hf.2
    have hlen : len + 1 = s.length := length_of_sequence_append hl
    rw [occurrences_of_dropWhile final i h, hl, occurrences_of_prefix (hs.trans hf.1)]
    have hstart : start = i + (l.length - ((0x5B :: rest).length + 1)) := rfl
    rw [CsiScan.found?, hlen, hstart]
    rfl
  | case5 i l e rest start f t hrest len hf h ih =>
    -- another byte ends the sequence, and the scan goes on at this byte
    obtain ⟨a, c, hl, hc, hane, hcne, hplace⟩ := exists_passed h hrest i
    rw [Bool.and_eq_true, finalMatches_iff hfinal] at hf
    have hnone : ∀ s, headSequence (escape :: 0x5B :: rest) = some s → s.final ≠ final := by
      intro s hs hsf
      obtain ⟨hsfinal, hfinal'⟩ := final_of_headSequence hrest hs
      exact hf ⟨hsfinal.symm.trans hsf, hfinal'⟩
    have hpassed : i + a.length + 1 + (0x5B :: c).length = start + len := by
      refine Eq.trans ?_ hplace.symm
      simp only [List.length_append, List.length_cons]
      omega
    have hsplit : l = a ++ escape :: 0x5B :: rest := by rw [hl, hc]; simp
    rw [ih, hsplit, occurrences_append_of_ne final hane, occurrences_escape_of_none hnone, hc,
      ← List.cons_append, occurrences_append_of_ne final (introducer_ne_escape hcne), hpassed]
  | case6 i l e c rest h start hc ih =>
    -- ESC without the introducer
    rw [ih, occurrences_of_dropWhile final i h, occurrences_escape_of_none]
    · rfl
    · intro s hs
      simp [headSequence, hc] at hs

theorem found?_csiScan (p : Platform) {final : UInt8} (hfinal : final < 0x80) (str : List UInt8) :
    (csiScan p str final).found? =
      (occurrences final 0 str).head?.map fun o => (o.1, o.2.length) :=
  found?_csiScanLoop p hfinal 0 str

/-! ## What the parse accepts -/

theorem csiParse_cons (introducer : UInt8) (rest : List UInt8) :
    csiParse (escape :: introducer :: rest) introducer =
      match (rest.dropWhile isParam).dropWhile isIntermediate with
      | [] => none
      | final :: t =>
        some (⟨rest.takeWhile isParam, (rest.dropWhile isParam).takeWhile isIntermediate, final⟩,
          rest.length + 2 - t.length) := by
  cases rest with
  | nil => rfl
  | cons b rest =>
    rw [csiParse, if_neg (by simp)]
    simp only [List.drop_succ_cons, List.drop_zero, List.length_cons]
    cases hparams : (b :: rest).dropWhile isParam with
    | nil => rfl
    | cons c t =>
      rw [if_neg (by simp)]

/-- Another start than ESC and the introducer. -/
theorem csiParse_of_ne {introducer : UInt8} {str : List UInt8}
    (h : ∀ rest, str ≠ escape :: introducer :: rest) : csiParse str introducer = none := by
  rw [csiParse, if_pos]
  rcases str with _ | ⟨e, _ | ⟨c, rest⟩⟩
  · simp
  · simp
  · right
    rw [← not_and_or]
    rintro ⟨he, hc⟩
    obtain rfl : e = escape := Option.some.inj he
    obtain rfl : c = introducer := Option.some.inj hc
    exact h rest rfl

/-- The parts that are parsed: the parameter bytes, the intermediate bytes and any byte that is not one
of them where it stands. -/
structure FepCSI.WellFormed (csi : FepCSI) : Prop where
  params : ∀ b ∈ csi.params, isParam b = true
  intermediate : ∀ b ∈ csi.intermediate, isIntermediate b = true
  final_param : csi.intermediate = [] → isParam csi.final = false
  final_intermediate : isIntermediate csi.final = false

/-- The number of bytes of a sequence. -/
def FepCSI.length (csi : FepCSI) : Nat := csi.params.length + csi.intermediate.length + 3

/-- **What the parse accepts**: the ESC, the introducer and the parts, with any bytes behind them. -/
theorem csiParse_eq_some_iff {str : List UInt8} {introducer : UInt8} {csi : FepCSI} {n : Nat} :
    csiParse str introducer = some (csi, n) ↔
      csi.WellFormed ∧ n = csi.length ∧
        ∃ t, str = escape :: introducer :: (csi.params ++ (csi.intermediate ++ csi.final :: t)) := by
  constructor
  · intro h
    obtain ⟨rest, rfl⟩ : ∃ rest, str = escape :: introducer :: rest := by
      by_contra hno
      rw [csiParse_of_ne (not_exists.mp hno)] at h
      exact absurd h (by simp)
    rw [csiParse_cons] at h
    cases hdrop : (rest.dropWhile isParam).dropWhile isIntermediate with
    | nil =>
      rw [hdrop] at h
      exact absurd h (by simp)
    | cons final t =>
      rw [hdrop] at h
      obtain ⟨rfl, rfl⟩ := Prod.mk.inj (Option.some.inj h)
      have hsplit : rest = rest.takeWhile isParam ++
          ((rest.dropWhile isParam).takeWhile isIntermediate ++ final :: t) := by
        rw [← hdrop, List.takeWhile_append_dropWhile, List.takeWhile_append_dropWhile]
      have hfinal : isIntermediate final = false := by
        have hhead := List.head?_dropWhile_not isIntermediate (rest.dropWhile isParam)
        rw [hdrop] at hhead
        simpa using hhead
      refine ⟨⟨?_, ?_, ?_, hfinal⟩, ?_, t, congrArg (fun l => escape :: introducer :: l) hsplit⟩
      · exact fun b hb => List.mem_takeWhile_imp hb
      · exact fun b hb => List.mem_takeWhile_imp hb
      · intro hnil
        -- without intermediate bytes it is the byte that ends the parameters
        have hhead := List.head?_dropWhile_not isParam rest
        have hrest := List.takeWhile_append_dropWhile (p := isIntermediate) (l := rest.dropWhile isParam)
        rw [show (rest.dropWhile isParam).takeWhile isIntermediate = [] from hnil, hdrop,
          List.nil_append] at hrest
        rw [← hrest] at hhead
        simpa using hhead
      · have hlen := congrArg List.length hsplit
        simp only [List.length_append, List.length_cons] at hlen
        show rest.length + 2 - t.length = _
        simp only [FepCSI.length]
        omega
  · rintro ⟨hcsi, rfl, t, rfl⟩
    obtain ⟨hparams, hrest, hinter, hrest'⟩ := takeParts hcsi.params hcsi.intermediate
      hcsi.final_param hcsi.final_intermediate t
    rw [csiParse_cons, hrest, hrest', hparams, hinter]
    simp only [List.length_append, List.length_cons, FepCSI.length]
    rw [show csi.params.length + (csi.intermediate.length + (t.length + 1)) + 2 - t.length =
      csi.params.length + csi.intermediate.length + 3 from by omega]

/-- A string that starts with a control sequence is parsed to its parts. -/
theorem csiParse_bytes (s : ControlSequence) (t : List UInt8) :
    csiParse (s.bytes ++ t) 0x5B = some (⟨s.params, s.intermediates, s.final⟩, s.length) := by
  rw [csiParse_eq_some_iff]
  refine ⟨⟨s.params_ok, s.intermediates_ok, ?_, ?_⟩, rfl, t, s.bytes_append t⟩
  · exact fun _ => not_isParam_of_isFinal s.final_ok
  · exact not_isIntermediate_of_isFinal s.final_ok

end LibFep
