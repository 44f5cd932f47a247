import Mathlib.Data.List.TakeWhile

/-!
# Control sequences in a byte string

The control sequences `ESC [ P* I* F` of a terminal: parameter bytes, intermediate bytes and one final
byte. A sequence carries the proof that its bytes are of these kinds, so that it can be read off a
string in one way only.

* **`headSequence_eq_some_iff`** — the sequence at the start of a string, if there is one, is the
  one whose bytes are a prefix of it.
* **`Unfinished`** — what is left of a sequence that the end of the string cuts off.
* **`occurrences`** — the sequences with a given final byte, with the places they start at.
* **`occurrences_of_prefix`**, **`occurrences_append`**, **`occurrences_take`** — they do not
  overlap, a byte that belongs to none of the three kinds cuts a string into parts that can be looked
  at by themselves, and an initial part of a string has those that end in it.
-/

namespace LibFep.Lib

def escape : UInt8 := 0x1B

def isParam (b : UInt8) : Bool := 0x30 ≤ b && b ≤ 0x3F

def isIntermediate (b : UInt8) : Bool := 0x20 ≤ b && b ≤ 0x2F

def isFinal (b : UInt8) : Bool := 0x40 ≤ b && b ≤ 0x7E

@[ext] structure ControlSequence where
  params : List UInt8
  intermediates : List UInt8
  final : UInt8
  params_ok : ∀ b ∈ params, isParam b = true
  intermediates_ok : ∀ b ∈ intermediates, isIntermediate b = true
  final_ok : isFinal final = true

def ControlSequence.bytes (s : ControlSequence) : List UInt8 :=
  escape :: 0x5B :: (s.params ++ (s.intermediates ++ [s.final]))

def ControlSequence.length (s : ControlSequence) : Nat :=
  s.params.length + s.intermediates.length + 3

@[simp] theorem ControlSequence.length_bytes (s : ControlSequence) : s.bytes.length = s.length := by
  simp [ControlSequence.bytes, ControlSequence.length]
  omega

/-- A byte that no sequence continues with. -/
def Stops (b : UInt8) : Prop := isParam b = false ∧ isIntermediate b = false ∧ isFinal b = false

instance : DecidablePred Stops := fun b =>
  inferInstanceAs (Decidable (isParam b = false ∧ isIntermediate b = false ∧ isFinal b = false))

theorem stops_escape : Stops escape := by decide

theorem stops_nul : Stops 0 := by decide

theorem not_isParam_of_isIntermediate {b : UInt8} (h : isIntermediate b = true) :
    isParam b = false := by
  simp only [isIntermediate, Bool.and_eq_true, decide_eq_true_eq, UInt8.le_iff_toNat_le] at h
  simp only [isParam, Bool.and_eq_false_iff, decide_eq_false_iff_not, UInt8.le_iff_toNat_le]
  have : (0x2F : UInt8).toNat = 47 := rfl
  have : (0x30 : UInt8).toNat = 48 := rfl
  omega

theorem not_isParam_of_isFinal {b : UInt8} (h : isFinal b = true) : isParam b = false := by
  simp only [isFinal, Bool.and_eq_true, decide_eq_true_eq, UInt8.le_iff_toNat_le] at h
  simp only [isParam, Bool.and_eq_false_iff, decide_eq_false_iff_not, UInt8.le_iff_toNat_le]
  have : (0x40 : UInt8).toNat = 64 := rfl
  have : (0x3F : UInt8).toNat = 63 := rfl
  omega

theorem not_isIntermediate_of_isFinal {b : UInt8} (h : isFinal b = true) :
    isIntermediate b = false := by
  simp only [isFinal, Bool.and_eq_true, decide_eq_true_eq, UInt8.le_iff_toNat_le] at h
  simp only [isIntermediate, Bool.and_eq_false_iff, decide_eq_false_iff_not,
    UInt8.le_iff_toNat_le]
  have : (0x40 : UInt8).toNat = 64 := rfl
  have : (0x2F : UInt8).toNat = 47 := rfl
  omega

/-- After the ESC, every byte of a sequence is of one of the three kinds. -/
theorem ControlSequence.not_stops_of_mem (s : ControlSequence) :
    ∀ b ∈ s.bytes.tail, ¬ Stops b := by
  intro b hb
  simp only [ControlSequence.bytes, List.tail_cons, List.mem_cons, List.mem_append,
    List.not_mem_nil, or_false] at hb
  rintro ⟨hparam, hinter, hfinal⟩
  rcases hb with rfl | hb | hb | rfl
  · exact absurd hfinal (by decide)
  · rw [s.params_ok b hb] at hparam
    exact absurd hparam (by decide)
  · rw [s.intermediates_ok b hb] at hinter
    exact absurd hinter (by decide)
  · rw [s.final_ok] at hfinal
    exact absurd hfinal (by decide)

theorem ControlSequence.ne_zero_of_mem (s : ControlSequence) : ∀ b ∈ s.bytes, b ≠ 0 := by
  intro b hb
  rcases List.mem_cons.mp hb with rfl | hb
  · decide
  · rintro rfl
    exact s.not_stops_of_mem 0 hb stops_nul

/-! ## The sequence at the start of a string -/

def headSequence : List UInt8 → Option ControlSequence
  | e :: c :: rest =>
    if e = escape ∧ c = 0x5B then
      match (rest.dropWhile isParam).dropWhile isIntermediate with
      | f :: _ =>
        if h : isFinal f = true then
          some ⟨rest.takeWhile isParam, (rest.dropWhile isParam).takeWhile isIntermediate, f,
            fun _ hb => List.mem_takeWhile_imp hb, fun _ hb => List.mem_takeWhile_imp hb, h⟩
        else none
      | [] => none
    else none
  | _ => none

/-- A run of bytes of one kind ends where a byte of another kind follows. -/
theorem takeWhile_append_cons {p : UInt8 → Bool} {a : List UInt8} (ha : ∀ b ∈ a, p b = true)
    {c : UInt8} (hc : p c = false) (t : List UInt8) :
    (a ++ c :: t).takeWhile p = a ∧ (a ++ c :: t).dropWhile p = c :: t := by
  constructor
  · rw [List.takeWhile_append_of_pos ha, List.takeWhile_cons_of_neg (by simp [hc]),
      List.append_nil]
  · rw [List.dropWhile_append_of_pos ha, List.dropWhile_cons_of_neg (by simp [hc])]

/-- The parts of a sequence taken apart again: the bytes that may follow the intermediate ones end them,
and without these the parameters. -/
theorem takeParts {params intermediates : List UInt8} {f : UInt8}
    (hparams : ∀ b ∈ params, isParam b = true)
    (hintermediates : ∀ b ∈ intermediates, isIntermediate b = true)
    (hparam : intermediates = [] → isParam f = false) (hintermediate : isIntermediate f = false)
    (t : List UInt8) :
    (params ++ (intermediates ++ f :: t)).takeWhile isParam = params ∧
      (params ++ (intermediates ++ f :: t)).dropWhile isParam = intermediates ++ f :: t ∧
      (intermediates ++ f :: t).takeWhile isIntermediate = intermediates ∧
      (intermediates ++ f :: t).dropWhile isIntermediate = f :: t := by
  have hfirst : (params ++ (intermediates ++ f :: t)).takeWhile isParam = params ∧
      (params ++ (intermediates ++ f :: t)).dropWhile isParam = intermediates ++ f :: t := by
    cases intermediates with
    | nil => exact takeWhile_append_cons hparams (hparam rfl) t
    | cons c cs =>
      have hc : isIntermediate c = true := hintermediates c List.mem_cons_self
      exact takeWhile_append_cons hparams (not_isParam_of_isIntermediate hc) (cs ++ f :: t)
  exact ⟨hfirst.1, hfirst.2, takeWhile_append_cons hintermediates hintermediate t⟩

/-- The bytes behind the introducer, taken apart again. -/
theorem ControlSequence.takeApart (s : ControlSequence) (t : List UInt8) :
    (s.params ++ (s.intermediates ++ s.final :: t)).takeWhile isParam = s.params ∧
      (s.params ++ (s.intermediates ++ s.final :: t)).dropWhile isParam =
        s.intermediates ++ s.final :: t ∧
      (s.intermediates ++ s.final :: t).takeWhile isIntermediate = s.intermediates ∧
      (s.intermediates ++ s.final :: t).dropWhile isIntermediate = s.final :: t :=
  takeParts s.params_ok s.intermediates_ok (fun _ => not_isParam_of_isFinal s.final_ok)
    (not_isIntermediate_of_isFinal s.final_ok) t

theorem ControlSequence.bytes_append (s : ControlSequence) (t : List UInt8) :
    s.bytes ++ t = escape :: 0x5B :: (s.params ++ (s.intermediates ++ s.final :: t)) := by
  simp [ControlSequence.bytes]

theorem headSequence_of_isPrefix {l : List UInt8} {s : ControlSequence} (h : s.bytes <+: l) :
    headSequence l = some s := by
  obtain ⟨t, rfl⟩ := h
  obtain ⟨hparams, hrest, hinter, hrest'⟩ := s.takeApart t
  rw [s.bytes_append, headSequence, if_pos ⟨rfl, rfl⟩]
  split
  · next f t' heq =>
    rw [hrest, hrest'] at heq
    obtain ⟨rfl, -⟩ := List.cons.inj heq
    rw [dif_pos s.final_ok]
    refine congrArg some (ControlSequence.ext hparams ?_ rfl)
    show ((s.params ++ (s.intermediates ++ s.final :: t)).dropWhile isParam).takeWhile
      isIntermediate = _
    rw [hrest, hinter]
  · next heq =>
    rw [hrest, hrest'] at heq
    exact absurd heq (by simp)

/-- The sequence at the start of a string is the one whose bytes are a prefix of it. -/
theorem headSequence_eq_some_iff {l : List UInt8} {s : ControlSequence} :
    headSequence l = some s ↔ s.bytes <+: l := by
  refine ⟨?_, headSequence_of_isPrefix⟩
  intro h
  -- the bytes that were taken apart are put together again
  unfold headSequence at h
  split at h
  · next e c rest =>
    split at h
    · next hec =>
      obtain ⟨rfl, rfl⟩ := hec
      split at h
      · next f t heq =>
        split at h
        · next hf =>
          rw [Option.some.injEq] at h
          subst h
          refine ⟨t, ?_⟩
          simp only [ControlSequence.bytes, List.cons_append, List.append_assoc, List.nil_append,
            ← heq, List.takeWhile_append_dropWhile]
        · exact absurd h (by simp)
      · exact absurd h (by simp)
    · exact absurd h (by simp)
  · exact absurd h (by simp)

/-- No sequence starts another one. -/
theorem ControlSequence.eq_of_isPrefix (s : ControlSequence) {s' : ControlSequence}
    (h : s'.bytes <+: s.bytes) : s' = s := by
  have hs' := headSequence_of_isPrefix h
  rw [headSequence_of_isPrefix (List.prefix_refl s.bytes)] at hs'
  exact (Option.some.inj hs').symm

/-! ## Sequences that the end of the string cuts off -/

/-- A string that ends before the final byte of a sequence it starts. -/
inductive Unfinished : List UInt8 → Prop where
  | escape : Unfinished [escape]
  | introduced {params intermediates : List UInt8} (hparams : ∀ b ∈ params, isParam b = true)
      (hintermediates : ∀ b ∈ intermediates, isIntermediate b = true) :
      Unfinished (Lib.escape :: 0x5B :: (params ++ intermediates))

theorem unfinished_cons_iff {rest : List UInt8} :
    Unfinished (escape :: 0x5B :: rest) ↔
      (rest.dropWhile isParam).dropWhile isIntermediate = [] := by
  constructor
  · intro h
    cases h with
    | introduced hparams hintermediates =>
      rw [List.dropWhile_append_of_pos hparams, List.dropWhile_eq_nil_iff]
      intro b hb
      exact hintermediates b ((List.dropWhile_sublist isParam).subset hb)
  · intro h
    rw [← List.takeWhile_append_dropWhile (p := isParam) (l := rest)]
    exact .introduced (fun b hb => List.mem_takeWhile_imp hb) (List.dropWhile_eq_nil_iff.mp h)

/-- An ESC starts it, and no other ESC follows. -/
theorem Unfinished.exists_eq_cons {t : List UInt8} (h : Unfinished t) :
    ∃ u, t = Lib.escape :: u ∧ Lib.escape ∉ u := by
  cases h with
  | escape => exact ⟨[], rfl, by simp⟩
  | @introduced params intermediates hparams hintermediates =>
    refine ⟨_, rfl, ?_⟩
    intro hmem
    rcases List.mem_cons.mp hmem with h | h
    · exact absurd h (by decide)
    · rcases List.mem_append.mp h with h | h
      · exact absurd (hparams _ h) (by decide)
      · exact absurd (hintermediates _ h) (by decide)

/-! ## Sequences with a given final byte -/

def matchAt (final : UInt8) (l : List UInt8) : Option ControlSequence :=
  (headSequence l).filter (·.final = final)

theorem matchAt_eq_some_iff {final : UInt8} {l : List UInt8} {s : ControlSequence} :
    matchAt final l = some s ↔ s.bytes <+: l ∧ s.final = final := by
  rw [matchAt, Option.filter_eq_some_iff, headSequence_eq_some_iff, decide_eq_true_eq]

theorem matchAt_eq_none_iff {final : UInt8} {l : List UInt8} :
    matchAt final l = none ↔ ∀ s : ControlSequence, s.bytes <+: l → s.final ≠ final := by
  rw [Option.eq_none_iff_forall_ne_some]
  constructor
  · intro h s hs hf
    exact h s (matchAt_eq_some_iff.mpr ⟨hs, hf⟩)
  · intro h s hs
    obtain ⟨hpre, hf⟩ := matchAt_eq_some_iff.mp hs
    exact h s hpre hf

theorem matchAt_cons_of_ne {final b : UInt8} {l : List UInt8} (hb : b ≠ escape) :
    matchAt final (b :: l) = none := by
  rw [matchAt_eq_none_iff]
  rintro s ⟨t, ht⟩ -
  exact hb (List.cons.inj ht).1.symm

/-- The sequences with the given final byte, each with the place it starts at. -/
def occurrences (final : UInt8) : Nat → List UInt8 → List (Nat × ControlSequence)
  | _, [] => []
  | i, b :: rest =>
    match matchAt final (b :: rest) with
    | some s => (i, s) :: occurrences final (i + 1) rest
    | none => occurrences final (i + 1) rest

@[simp] theorem occurrences_nil (final : UInt8) (i : Nat) : occurrences final i [] = [] := rfl

theorem occurrences_cons_of_none {final b : UInt8} {rest : List UInt8}
    (h : matchAt final (b :: rest) = none) (i : Nat) :
    occurrences final i (b :: rest) = occurrences final (i + 1) rest := by
  rw [occurrences, h]

theorem occurrences_append_of_ne (final : UInt8) {a : List UInt8} (ha : ∀ b ∈ a, b ≠ escape)
    (l : List UInt8) (i : Nat) :
    occurrences final i (a ++ l) = occurrences final (i + a.length) l := by
  induction a generalizing i with
  | nil => rfl
  | cons b a ih =>
    rw [List.cons_append, occurrences_cons_of_none (matchAt_cons_of_ne (ha b List.mem_cons_self)),
      ih (fun c hc => ha c (List.mem_cons_of_mem _ hc)), List.length_cons,
      show i + 1 + a.length = i + (a.length + 1) from by omega]

theorem occurrences_of_ne (final : UInt8) {a : List UInt8} (ha : ∀ b ∈ a, b ≠ escape) (i : Nat) :
    occurrences final i a = [] := by
  simpa using occurrences_append_of_ne final ha [] i

/-- A sequence at the start of a string is the first one, and the next one starts behind it. -/
theorem occurrences_of_prefix {final : UInt8} {s : ControlSequence} (hs : s.final = final)
    (t : List UInt8) (i : Nat) :
    occurrences final i (s.bytes ++ t) = (i, s) :: occurrences final (i + s.length) t := by
  have hmatch : matchAt final (s.bytes ++ t) = some s :=
    matchAt_eq_some_iff.mpr ⟨List.prefix_append _ _, hs⟩
  -- no ESC follows inside the sequence, so that the search goes on behind it
  have htail : ∀ b ∈ s.bytes.tail, b ≠ escape := by
    intro b hb heq
    exact s.not_stops_of_mem b hb (heq ▸ stops_escape)
  have hbytes : s.bytes ++ t = escape :: (s.bytes.tail ++ t) := rfl
  have hlen : s.bytes.tail.length + 1 = s.length := by
    rw [← s.length_bytes]
    rfl
  rw [hbytes] at hmatch ⊢
  rw [occurrences, hmatch]
  show (i, s) :: occurrences final (i + 1) (s.bytes.tail ++ t) = _
  rw [occurrences_append_of_ne final htail, show i + 1 + s.bytes.tail.length = i + s.length from by
    omega]

/-- A prefix of a string that ends before a byte that stops a sequence. -/
theorem prefix_append_iff_of_stops (s : ControlSequence) {a b : List UInt8} (ha : a ≠ [])
    (hb : ∀ c ∈ b.head?, Stops c) : s.bytes <+: a ++ b ↔ s.bytes <+: a := by
  constructor
  · intro h
    rcases Nat.lt_or_ge a.length s.bytes.length with hlt | hge
    · -- the sequence would contain the byte that stops it
      exfalso
      obtain ⟨t, ht⟩ := h
      obtain ⟨c, b', rfl⟩ : ∃ c b', b = c :: b' := by
        cases b with
        | nil =>
          have hlen := congrArg List.length ht
          simp only [List.length_append, List.length_nil] at hlen
          omega
        | cons c b' => exact ⟨c, b', rfl⟩
      have hget : s.bytes[a.length]? = some c := by
        have hboth := congrArg (·[a.length]?) ht
        simpa [List.getElem?_append_left hlt] using hboth
      have hmem : c ∈ s.bytes.tail := by
        obtain ⟨k, hk⟩ : ∃ k, a.length = k + 1 :=
          Nat.exists_eq_succ_of_ne_zero (by simpa using ha)
        rw [hk, ← List.getElem?_tail] at hget
        exact List.mem_of_getElem? hget
      exact s.not_stops_of_mem c hmem (hb c rfl)
    · exact List.prefix_of_prefix_length_le h (List.prefix_append a b) hge
  · exact fun h => h.trans (List.prefix_append a b)

/-- A byte that stops sequences cuts a string into two. -/
theorem occurrences_append (final : UInt8) (a : List UInt8) {b : List UInt8}
    (hb : ∀ c ∈ b.head?, Stops c) (i : Nat) :
    occurrences final i (a ++ b) =
      occurrences final i a ++ occurrences final (i + a.length) b := by
  induction a generalizing i with
  | nil => simp
  | cons c a ih =>
    -- a sequence that starts before the byte that stops it ends before it
    have hmatch : matchAt final (c :: a ++ b) = matchAt final (c :: a) := by
      apply Option.ext
      intro s
      rw [matchAt_eq_some_iff, matchAt_eq_some_iff, prefix_append_iff_of_stops s (by simp) hb]
    have hnext : i + (c :: a).length = i + 1 + a.length := by
      rw [List.length_cons]
      omega
    rw [List.cons_append] at hmatch ⊢
    rw [occurrences, occurrences, hmatch, hnext]
    cases matchAt final (c :: a) with
    | none => exact ih (i + 1)
    | some s => exact congrArg ((i, s) :: ·) (ih (i + 1))

/-- The places count from the start of the string. -/
theorem occurrences_add (final : UInt8) (i j : Nat) (l : List UInt8) :
    occurrences final (i + j) l = (occurrences final i l).map fun o => (o.1 + j, o.2) := by
  induction l generalizing i with
  | nil => rfl
  | cons b l ih =>
    rw [occurrences, occurrences]
    have hrest : occurrences final (i + j + 1) l =
        (occurrences final (i + 1) l).map fun o => (o.1 + j, o.2) := by
      rw [← ih, show i + 1 + j = i + j + 1 from by omega]
    cases matchAt final (b :: l) with
    | none => exact hrest
    | some s => rw [hrest, List.map_cons]

/-- The first sequence of a string, and the others behind it. -/
theorem occurrences_eq_cons {final : UInt8} {l : List UInt8} {i j : Nat} {s : ControlSequence}
    {rest : List (Nat × ControlSequence)} (h : occurrences final i l = (j, s) :: rest) :
    ∃ a t, l = a ++ (s.bytes ++ t) ∧ j = i + a.length ∧ s.final = final ∧
      rest = occurrences final (j + s.length) t := by
  induction l generalizing i with
  | nil => exact absurd h (by simp)
  | cons b l ih =>
    -- either nothing starts here, or this is the first sequence
    cases hmatch : matchAt final (b :: l) with
    | none =>
      rw [occurrences_cons_of_none hmatch] at h
      obtain ⟨a, t, rfl, hj, hs, hrest⟩ := ih h
      exact ⟨b :: a, t, rfl, by rw [hj, List.length_cons]; omega, hs, hrest⟩
    | some s' =>
      obtain ⟨⟨t, ht⟩, hs⟩ := matchAt_eq_some_iff.mp hmatch
      rw [← ht, occurrences_of_prefix hs] at h
      obtain ⟨hhead, htail⟩ := List.cons.inj h
      obtain ⟨rfl, rfl⟩ := Prod.mk.inj hhead
      exact ⟨[], t, ht.symm, by simp, hs, htail.symm⟩

/-- The sequences start behind the place that is counted from. -/
theorem le_of_mem_occurrences {final : UInt8} {i : Nat} {l : List UInt8}
    {o : Nat × ControlSequence} (h : o ∈ occurrences final i l) : i ≤ o.1 := by
  induction l generalizing i with
  | nil => exact absurd h (by simp)
  | cons b l ih =>
    rw [occurrences] at h
    split at h
    · rcases List.mem_cons.mp h with rfl | h
      · exact Nat.le_refl i
      · exact Nat.le_of_succ_le (ih h)
    · exact Nat.le_of_succ_le (ih h)

/-- A sequence occurs where its bytes are. -/
theorem mem_occurrences_iff {final : UInt8} {i : Nat} {l : List UInt8}
    {o : Nat × ControlSequence} :
    o ∈ occurrences final i l ↔
      ∃ k, o.1 = i + k ∧ o.2.bytes <+: l.drop k ∧ o.2.final = final := by
  induction l generalizing i with
  | nil =>
    refine iff_of_false (by simp) ?_
    rintro ⟨k, -, hpre, -⟩
    rw [List.drop_nil, List.prefix_nil] at hpre
    exact absurd hpre (by simp [ControlSequence.bytes])
  | cons b l ih =>
    have hhead : o ∈ occurrences final i (b :: l) ↔
        (o.1 = i ∧ o.2.bytes <+: b :: l ∧ o.2.final = final) ∨
          o ∈ occurrences final (i + 1) l := by
      rw [← matchAt_eq_some_iff, occurrences]
      cases matchAt final (b :: l) with
      | none => simp
      | some s => simp [Prod.ext_iff, eq_comm (a := s)]
    rw [hhead, ih]
    constructor
    · rintro (⟨hi, h⟩ | ⟨k, hk, h⟩)
      · exact ⟨0, hi, h⟩
      · exact ⟨k + 1, by omega, h⟩
    · rintro ⟨k, hk, h⟩
      cases k with
      | zero => exact Or.inl ⟨hk, h⟩
      | succ k => exact Or.inr ⟨k, by omega, h⟩

/-- A sequence ends in the string. -/
theorem le_length_of_mem_occurrences {final : UInt8} {i : Nat} {l : List UInt8}
    {o : Nat × ControlSequence} (h : o ∈ occurrences final i l) :
    o.1 + o.2.length ≤ i + l.length := by
  obtain ⟨k, hk, hpre, -⟩ := mem_occurrences_iff.mp h
  have hlen := hpre.length_le
  rw [o.2.length_bytes, List.length_drop] at hlen
  have hpos : 0 < o.2.length := by simp [ControlSequence.length]
  omega

theorem matchAt_take {final : UInt8} {l : List UInt8} {n : Nat} :
    matchAt final (l.take n) = (matchAt final l).filter (·.length ≤ n) := by
  apply Option.ext
  intro s
  rw [Option.filter_eq_some_iff, matchAt_eq_some_iff, matchAt_eq_some_iff, decide_eq_true_eq,
    List.prefix_take_iff, ControlSequence.length_bytes, and_right_comm]

/-- The sequences of an initial part are those that end in it. -/
theorem occurrences_take (final : UInt8) (i n : Nat) (l : List UInt8) :
    occurrences final i (l.take n) =
      (occurrences final i l).filter fun o => o.1 + o.2.length ≤ i + n := by
  induction l generalizing i n with
  | nil => simp
  | cons b l ih =>
    cases n with
    | zero =>
      rw [List.take_zero, occurrences_nil, eq_comm, List.filter_eq_nil_iff]
      intro o ho
      have hle := le_of_mem_occurrences ho
      have hpos : 0 < o.2.length := by simp [ControlSequence.length]
      simp only [decide_eq_true_eq]
      omega
    | succ n =>
      have hmatch := @matchAt_take final (b :: l) (n + 1)
      have hrest := ih (i + 1) n
      rw [show i + 1 + n = i + (n + 1) from by omega] at hrest
      rw [List.take_succ_cons] at hmatch ⊢
      rw [occurrences, occurrences, hmatch]
      cases matchAt final (b :: l) with
      | none => exact hrest
      | some s =>
        rw [Option.filter_some]
        by_cases hs : s.length ≤ n + 1
        · rw [if_pos (by simpa using hs), List.filter_cons_of_pos (by simpa using hs), hrest]
        · rw [if_neg (by simpa using hs), List.filter_cons_of_neg (by simpa using hs), hrest]

end LibFep.Lib
