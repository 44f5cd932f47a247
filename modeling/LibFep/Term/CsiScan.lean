import LibFep.Term.Csi

/-!
# LibFep — what a scan for CSI sequences reads and reports

`_fep_csi_scan` of `fep/csi.c` once more, statement by statement: every byte is read through a pointer,
and a read outside the `len` bytes of the string is a fault. `csiScan` is what it computes.

* **`csiScanRounds_eq`** — the loop ends, faults nowhere and returns what `csiScan` does.
* **`csiScanLoop_describes`** — where it finds nothing, it reports the sequence that the end of the string
  cuts off.
* **`csiScanRounds_report`** — both, with the leftmost match that it finds otherwise.
-/

namespace LibFep

open Lib

/-! ## `_fep_csi_scan`, read by read -/

/-- `memchr (p, c, n)`. -/
def memchr (str : List UInt8) (c : UInt8) (i : Nat) : Nat → Except Fault (Option Nat)
  | 0 => .ok none
  | n + 1 => do
    if (← byteAt str i) = c then return some i
    memchr str c (i + 1) n

/-- The loop that steps over the bytes of a kind. The number is that of the bytes left. -/
def skipWhile (str : List UInt8) (kind : UInt8 → Bool) (i : Nat) : Nat → Except Fault Nat
  | 0 => .ok i
  | n + 1 => do
    if kind (← byteAt str i) then skipWhile str kind (i + 1) n
    else return i

/-- How a round of the loop ends. -/
inductive CsiRound where
  | returns (result : CsiScan)
  /-- The next round starts at `p`. -/
  | resumes (i : Nat)
  deriving DecidableEq, Repr

def csiScanRound (p : Platform) (str : List UInt8) (final : UInt8) (i : Nat) :
    Except Fault CsiRound := do
  let len := str.length
  let some start ← memchr str escape i (len - i) | return .returns .notFound
  let i := start + 1
  if i = len then return .returns (.incomplete start (i - start))
  if (← byteAt str i) = 0x5B then
    let i := i + 1
    if i = len then return .returns (.incomplete start (i - start))
    let i ← skipWhile str isParam i (len - i)
    let i ← skipWhile str isIntermediate i (len - i)
    if i = len then return .returns (.incomplete start (i - start))
    let c ← byteAt str i
    if finalMatches p final c && isFinal c then return .returns (.found start (i - start + 1))
    return .resumes i
  return .resumes i

/-- The loop, for as many rounds as the fuel allows. -/
def csiScanRounds (p : Platform) (str : List UInt8) (final : UInt8) :
    Nat → Nat → Except Fault (Option CsiScan)
  | 0, _ => .ok none
  | fuel + 1, i => do
    if str.length ≤ i then return some .notFound
    match ← csiScanRound p str final i with
    | .returns result => return some result
    | .resumes i => csiScanRounds p str final fuel i

/-! ## The reads -/

theorem byteAt_of_drop {str t : List UInt8} {i : Nat} {b : UInt8} (h : str.drop i = b :: t) :
    byteAt str i = .ok b := by
  have hget : str[i]? = some b := by
    rw [← Nat.add_zero i, ← List.getElem?_drop, h]
    rfl
  rw [byteAt, hget]

theorem drop_succ_of_drop {str t : List UInt8} {i : Nat} {b : UInt8} (h : str.drop i = b :: t) :
    str.drop (i + 1) = t := by
  rw [← List.drop_drop, h]
  rfl

theorem memchr_eq (str : List UInt8) (c : UInt8) {i : Nat} {l : List UInt8} (h : str.drop i = l) :
    memchr str c i l.length =
      .ok (if l.dropWhile (· ≠ c) = [] then none
        else some (i + (l.length - (l.dropWhile (· ≠ c)).length))) := by
  induction l generalizing i with
  | nil => rfl
  | cons b l ih =>
    rw [List.length_cons, memchr, byteAt_of_drop h]
    show (if b = c then Except.ok (some i) else memchr str c (i + 1) l.length) = _
    by_cases hb : b = c
    · rw [if_pos hb, List.dropWhile_cons_of_neg (by simpa using hb)]
      simp
    · rw [if_neg hb, ih (drop_succ_of_drop h), List.dropWhile_cons_of_pos (by simpa using hb)]
      have hlen := List.length_dropWhile_le (· ≠ c) l
      rw [show i + 1 + (l.length - (l.dropWhile (· ≠ c)).length) =
        i + (l.length + 1 - (l.dropWhile (· ≠ c)).length) from by omega]

theorem skipWhile_eq (str : List UInt8) (kind : UInt8 → Bool) {i : Nat} {l : List UInt8}
    (h : str.drop i = l) :
    skipWhile str kind i l.length = .ok (i + (l.length - (l.dropWhile kind).length)) := by
  induction l generalizing i with
  | nil => rfl
  | cons b l ih =>
    rw [List.length_cons, skipWhile, byteAt_of_drop h]
    show (if kind b = true then skipWhile str kind (i + 1) l.length else Except.ok i) = _
    by_cases hb : kind b = true
    · have hlen := List.length_dropWhile_le kind l
      rw [if_pos hb, ih (drop_succ_of_drop h), List.dropWhile_cons_of_pos hb,
        show i + 1 + (l.length - (l.dropWhile kind).length) =
          i + (l.length + 1 - (l.dropWhile kind).length) from by omega]
    · rw [if_neg hb, List.dropWhile_cons_of_neg hb]
      simp

/-- The place in the string where `t` is what is left. -/
structure At (str : List UInt8) (i : Nat) (t : List UInt8) : Prop where
  drop_eq : str.drop i = t
  add_length : i + t.length = str.length

theorem at_zero (str : List UInt8) : At str 0 str := ⟨rfl, Nat.zero_add _⟩

theorem At.byteAt {str t : List UInt8} {i : Nat} {b : UInt8} (h : At str i (b :: t)) :
    byteAt str i = .ok b :=
  byteAt_of_drop h.drop_eq

theorem At.succ {str t : List UInt8} {i : Nat} {b : UInt8} (h : At str i (b :: t)) :
    At str (i + 1) t := by
  have hlen := h.add_length
  rw [List.length_cons] at hlen
  exact ⟨drop_succ_of_drop h.drop_eq, by omega⟩

theorem At.ne_length {str t : List UInt8} {i : Nat} {b : UInt8} (h : At str i (b :: t)) :
    i ≠ str.length := by
  have hlen := h.add_length
  rw [List.length_cons] at hlen
  omega

/-- What is left behind the bytes of a kind. -/
theorem At.dropWhile {str l : List UInt8} {i : Nat} (h : At str i l) (kind : UInt8 → Bool) :
    At str (i + (l.length - (l.dropWhile kind).length)) (l.dropWhile kind) := by
  have hlen := List.length_dropWhile_le kind l
  have hsplit := List.takeWhile_append_dropWhile (p := kind) (l := l)
  have hsum := congrArg List.length hsplit
  rw [List.length_append] at hsum
  refine ⟨?_, by have := h.add_length; omega⟩
  rw [← List.drop_drop, h.drop_eq, show l.length - (l.dropWhile kind).length =
    (l.takeWhile kind).length from by omega]
  nth_rewrite 2 [← hsplit]
  rw [List.drop_left]

theorem At.lt_of_dropWhile {str l t : List UInt8} {i : Nat} {b : UInt8} {kind : UInt8 → Bool}
    (h : At str i l) (hl : l.dropWhile kind = b :: t) : i < str.length := by
  have hat := (h.dropWhile kind).add_length
  rw [hl, List.length_cons] at hat
  omega

theorem At.skipWhile {str l : List UInt8} {i : Nat} (h : At str i l) (kind : UInt8 → Bool) :
    skipWhile str kind i (str.length - i) =
      .ok (i + (l.length - (l.dropWhile kind).length)) := by
  rw [← h.add_length, Nat.add_sub_cancel_left]
  exact skipWhile_eq str kind h.drop_eq

/-! ## A round -/

variable (p : Platform) (final : UInt8) {str l : List UInt8} {i : Nat}

/-- No ESC is left. -/
theorem csiScanRound_nil (h : At str i l) (hl : l.dropWhile (· ≠ escape) = []) :
    csiScanRound p str final i = .ok (.returns .notFound) := by
  have hmemchr : memchr str escape i (str.length - i) = .ok none := by
    rw [← h.add_length, Nat.add_sub_cancel_left, memchr_eq str escape h.drop_eq, if_pos hl]
  simp only [csiScanRound, hmemchr]
  rfl

/-- What the round does from the ESC on. -/
theorem csiScanRound_cons (h : At str i l) {e : UInt8} {t : List UInt8}
    (hl : l.dropWhile (· ≠ escape) = e :: t) :
    ∃ start, start = i + (l.length - (t.length + 1)) ∧ At str start (e :: t) ∧
      memchr str escape i (str.length - i) = .ok (some start) := by
  refine ⟨_, rfl, ?_, ?_⟩
  · have hat := h.dropWhile (· ≠ escape)
    rw [hl, List.length_cons] at hat
    exact hat
  · rw [← h.add_length, Nat.add_sub_cancel_left, memchr_eq str escape h.drop_eq, hl, if_neg (by simp)]
    rfl

theorem csiScanRound_escape (h : At str i l) {e : UInt8}
    (hl : l.dropWhile (· ≠ escape) = [e]) :
    csiScanRound p str final i = .ok (.returns (.incomplete (i + (l.length - 1)) 1)) := by
  obtain ⟨start, hstart, hat, hmemchr⟩ := csiScanRound_cons h hl
  have hend : start + 1 = str.length := hat.add_length
  have hlen : start + 1 - start = 1 := by omega
  rw [show i + (l.length - 1) = start from hstart.symm]
  simp only [csiScanRound, hmemchr, ok_bind, if_pos hend, hlen]
  rfl

/-- ESC without the introducer. -/
theorem csiScanRound_other (h : At str i l) {e c : UInt8} {rest : List UInt8}
    (hl : l.dropWhile (· ≠ escape) = e :: c :: rest) (hc : c ≠ 0x5B) :
    csiScanRound p str final i =
      .ok (.resumes (i + (l.length - (rest.length + 2)) + 1)) := by
  obtain ⟨start, hstart, hat, hmemchr⟩ := csiScanRound_cons h hl
  have hmore : start + 1 ≠ str.length := hat.succ.ne_length
  rw [show i + (l.length - (rest.length + 2)) = start from hstart.symm]
  simp only [csiScanRound, hmemchr, ok_bind, if_neg hmore, hat.succ.byteAt, if_neg hc]
  rfl

/-- The place behind the parameter and intermediate bytes. -/
theorem At.behindParts {start : Nat} {e c : UInt8} {rest : List UInt8}
    (h : At str start (e :: c :: rest)) :
    start + 1 + 1 + (rest.length - (rest.dropWhile isParam).length) +
        ((rest.dropWhile isParam).length -
          ((rest.dropWhile isParam).dropWhile isIntermediate).length) =
      start + (2 + (rest.length - ((rest.dropWhile isParam).dropWhile isIntermediate).length)) ∧
    At str (start + (2 + (rest.length -
        ((rest.dropWhile isParam).dropWhile isIntermediate).length)))
      ((rest.dropWhile isParam).dropWhile isIntermediate) := by
  have h1 := List.length_dropWhile_le isParam rest
  have h2 := List.length_dropWhile_le isIntermediate (rest.dropWhile isParam)
  have heq : start + 1 + 1 + (rest.length - (rest.dropWhile isParam).length) +
        ((rest.dropWhile isParam).length -
          ((rest.dropWhile isParam).dropWhile isIntermediate).length) =
      start + (2 + (rest.length - ((rest.dropWhile isParam).dropWhile isIntermediate).length)) := by
    omega
  exact ⟨heq, heq ▸ (h.succ.succ.dropWhile isParam).dropWhile isIntermediate⟩

/-- The introducer, and behind it what its parameter and intermediate bytes leave. -/
theorem csiScanRound_introducer (h : At str i l) {e : UInt8} {rest : List UInt8}
    (hl : l.dropWhile (· ≠ escape) = e :: 0x5B :: rest) :
    let start := i + (l.length - (rest.length + 2))
    csiScanRound p str final i =
      match (rest.dropWhile isParam).dropWhile isIntermediate with
      | [] => .ok (.returns (.incomplete start (2 + rest.length)))
      | f :: t =>
        let len := 2 + (rest.length - (t.length + 1))
        if finalMatches p final f && isFinal f then .ok (.returns (.found start (len + 1)))
        else .ok (.resumes (start + len)) := by
  obtain ⟨start, hstart, hat, hmemchr⟩ := csiScanRound_cons h hl
  have hmore : start + 1 ≠ str.length := hat.succ.ne_length
  have hrest := hat.succ.succ
  have hparams := hrest.dropWhile isParam
  obtain ⟨hplace, hinter⟩ := hat.behindParts
  rw [show i + (l.length - (rest.length + 2)) = start from hstart.symm]
  simp only [csiScanRound, hmemchr, ok_bind, if_neg hmore, hat.succ.byteAt, if_true,
    hrest.skipWhile, hparams.skipWhile, hplace]
  have hend := hinter.add_length
  cases hdrop : (rest.dropWhile isParam).dropWhile isIntermediate with
  | nil =>
    -- also when nothing follows the introducer
    rw [hdrop, List.length_nil, Nat.sub_zero] at hend
    rw [List.length_nil, Nat.sub_zero]
    by_cases hnil : start + 1 + 1 = str.length
    · have hrestlen := hrest.add_length
      rw [if_pos hnil, show start + 1 + 1 - start = 2 + rest.length from by omega]
      rfl
    · rw [if_neg hnil, if_pos (by omega), Nat.add_sub_cancel_left]
      rfl
  | cons f t =>
    rw [hdrop, List.length_cons] at hinter hend
    have hrestlen := hrest.add_length
    simp only [List.length_cons]
    rw [if_neg (by omega), if_neg (by omega), hinter.byteAt, ok_bind, Nat.add_sub_cancel_left]
    by_cases hfound : (finalMatches p final f && isFinal f) = true
    · rw [if_pos hfound, if_pos hfound]
      rfl
    · rw [if_neg hfound, if_neg hfound]
      rfl

/-! ## The loop -/

theorem csiScanRounds_returns {fuel : Nat} {result : CsiScan} (hi : i < str.length)
    (hround : csiScanRound p str final i = .ok (.returns result)) :
    csiScanRounds p str final (fuel + 1) i = .ok (some result) := by
  rw [csiScanRounds, if_neg (by omega), hround]
  rfl

theorem csiScanRounds_resumes {fuel i' : Nat} (hi : i < str.length)
    (hround : csiScanRound p str final i = .ok (.resumes i')) :
    csiScanRounds p str final (fuel + 1) i = csiScanRounds p str final fuel i' := by
  rw [csiScanRounds, if_neg (by omega), hround]
  rfl

/-- A round that steps over a byte at least leaves enough fuel for the others. -/
theorem csiScanRounds_goesOn {fuel i' : Nat} {l' : List UInt8} {result : CsiScan} (h : At str i l)
    (hfuel : l.length < fuel + 1) (hlt : i < i') (h' : At str i' l')
    (hround : csiScanRound p str final i = .ok (.resumes i'))
    (hrest : ∀ fuel, l'.length < fuel + 1 →
      csiScanRounds p str final (fuel + 1) i' = .ok (some result)) :
    csiScanRounds p str final (fuel + 1) i = .ok (some result) := by
  have hlen := h.add_length
  have hlen' := h'.add_length
  obtain ⟨fuel, rfl⟩ := Nat.exists_eq_succ_of_ne_zero (show fuel ≠ 0 by omega)
  rw [csiScanRounds_resumes p final (by omega) hround]
  exact hrest fuel (by omega)

/-- **The loop ends and reads only the bytes of the string.** Induction on the rounds of `csiScanLoop`:
each of them steps over a byte at least, so that the fuel lasts for the others. -/
theorem csiScanRounds_eq (h : At str i l) (fuel : Nat) (hfuel : l.length < fuel) :
    csiScanRounds p str final fuel i = .ok (some (csiScanLoop p final i l)) := by
  obtain ⟨fuel, rfl⟩ := Nat.exists_eq_succ_of_ne_zero (Nat.ne_of_gt (Nat.zero_lt_of_lt hfuel))
  fun_induction csiScanLoop p final i l generalizing fuel with
  | case1 i l hl =>
    rcases Nat.lt_or_ge i str.length with hi | hi
    · exact csiScanRounds_returns p final hi (csiScanRound_nil p final h hl)
    · rw [csiScanRounds, if_pos hi]
      rfl
  | case2 i l e hl =>
    have hi : i < str.length := h.lt_of_dropWhile hl
    exact csiScanRounds_returns p final hi (csiScanRound_escape p final h hl)
  | case3 i l e rest start hrest hl =>
    have hi : i < str.length := h.lt_of_dropWhile hl
    have hround := csiScanRound_introducer p final h hl
    simp only [hrest] at hround
    exact csiScanRounds_returns p final hi hround
  | case4 i l e rest start f t hrest len hf hl =>
    have hi : i < str.length := h.lt_of_dropWhile hl
    have hround := csiScanRound_introducer p final h hl
    simp only [hrest, if_pos hf] at hround
    exact csiScanRounds_returns p final hi hround
  | case5 i l e rest start f t hrest len hf hl ih =>
    have hround := csiScanRound_introducer p final h hl
    simp only [hrest, if_neg hf] at hround
    obtain ⟨start', hstart', hat, -⟩ := csiScanRound_cons h hl
    have hnext := hat.behindParts.2
    rw [hrest, List.length_cons, hstart'] at hnext
    exact csiScanRounds_goesOn p final h hfuel (by omega) hnext hround (ih hnext)
  | case6 i l e c rest hl start hc ih =>
    obtain ⟨start', hstart', hat, -⟩ := csiScanRound_cons h hl
    have hround := csiScanRound_other p final h hl hc
    have hnext := hat.succ
    rw [hstart'] at hnext
    exact csiScanRounds_goesOn p final h hfuel (by omega) hnext hround (ih hnext)

/-! ## What the scan reports where it finds nothing -/

/-- The report of a scan of `l`, which starts at `i`, as far as it has found nothing. -/
def CsiScan.Describes (i : Nat) (l : List UInt8) : CsiScan → Prop
  | .found _ _ => True
  | .incomplete csi len => ∃ a t, l = a ++ t ∧ Unfinished t ∧ csi = i + a.length ∧ len = t.length
  | .notFound => ∀ a t, l = a ++ t → ¬ Unfinished t

/-- The bytes that a round steps over can be put in front again, if no unfinished sequence starts among
them. -/
theorem CsiScan.Describes.append {result : CsiScan} {a : List UInt8}
    (h : result.Describes (i + a.length) l)
    (ha : ∀ a' t, a ++ l = a' ++ t → Unfinished t → a.length ≤ a'.length) :
    result.Describes i (a ++ l) := by
  cases result with
  | found csi len => exact trivial
  | incomplete csi len =>
    obtain ⟨b, t, rfl, ht, hcsi, hlen⟩ := h
    refine ⟨a ++ b, t, (List.append_assoc a b t).symm, ht, ?_, hlen⟩
    rw [hcsi, List.length_append]
    omega
  | notFound =>
    intro a' t heq ht
    obtain ⟨b, rfl⟩ : a <+: a' := by
      apply List.prefix_of_prefix_length_le (List.prefix_append a l) _ (ha a' t heq ht)
      exact heq ▸ List.prefix_append a' t
    rw [List.append_assoc] at heq
    exact h b t (List.append_cancel_left heq) ht

/-- An unfinished sequence starts behind bytes other than ESC. -/
theorem length_le_of_unfinished {a a' t : List UInt8} (ha : ∀ b ∈ a, b ≠ escape)
    (heq : a ++ l = a' ++ t) (ht : Unfinished t) : a.length ≤ a'.length := by
  obtain ⟨u, rfl, -⟩ := ht.exists_eq_cons
  by_contra hlt
  have hget := congrArg (·[a'.length]?) heq
  simp only [List.getElem?_append_left (show a'.length < a.length by omega),
    List.getElem?_append_right (Nat.le_refl _), Nat.sub_self, List.getElem?_cons_zero] at hget
  exact ha escape (List.mem_of_getElem? hget) rfl

/-- The same with an ESC in front that does not start one. -/
theorem length_le_of_not_unfinished {a c a' t : List UInt8} {e : UInt8} (ha : ∀ b ∈ a, b ≠ escape)
    (hc : ∀ b ∈ c, b ≠ escape) (hnot : ¬ Unfinished (e :: c ++ l))
    (heq : (a ++ e :: c) ++ l = a' ++ t) (ht : Unfinished t) :
    (a ++ e :: c).length ≤ a'.length := by
  rw [List.append_assoc] at heq
  have hle := length_le_of_unfinished ha heq ht
  obtain ⟨b, rfl⟩ : a <+: a' := by
    apply List.prefix_of_prefix_length_le (List.prefix_append a (e :: c ++ l)) _ hle
    exact heq ▸ List.prefix_append a' t
  rw [List.append_assoc] at heq
  have hrest := List.append_cancel_left heq
  cases b with
  | nil => exact absurd (hrest ▸ ht) hnot
  | cons e' b =>
    have htail := length_le_of_unfinished hc (List.cons.inj hrest).2 ht
    simp only [List.length_append, List.length_cons]
    omega

theorem csiScanLoop_describes (i : Nat) (l : List UInt8) :
    (csiScanLoop p final i l).Describes i l := by
  fun_induction csiScanLoop p final i l with
  | case1 i l hl =>
    -- no ESC is left
    intro a t heq ht
    obtain ⟨u, rfl, -⟩ := ht.exists_eq_cons
    have hall := List.dropWhile_eq_nil_iff.mp hl escape (by simp [heq])
    exact absurd hall (by decide)
  | case2 i l e hl =>
    obtain ⟨a, ha, hlen, -⟩ := exists_eq_append_escape hl
    exact ⟨a, [escape], ha, .escape, congrArg (i + ·) hlen.symm, rfl⟩
  | case3 i l e rest start hrest hl =>
    obtain ⟨a, ha, hlen, -⟩ := exists_eq_append_escape hl
    refine ⟨a, _, ha, unfinished_cons_iff.mpr hrest, congrArg (i + ·) hlen.symm, ?_⟩
    rw [List.length_cons, List.length_cons]
    omega
  | case4 i l e rest start f t hrest len hf hl => trivial
  | case5 i l e rest start f t hrest len hf hl ih =>
    -- the byte that ends the sequence is not among its parts
    obtain ⟨a, c, hl', hc, hne, hcne, hplace⟩ := exists_passed hl hrest i
    have hnot : ¬ Unfinished (escape :: (0x5B :: c) ++ f :: t) := by
      rw [List.cons_append, List.cons_append, ← hc, unfinished_cons_iff, hrest]
      simp
    have hplace : start + len = i + (a ++ escape :: 0x5B :: c).length := hplace
    rw [hplace] at ih ⊢
    rw [hl']
    exact ih.append fun a' t' heq ht =>
      length_le_of_not_unfinished hne (introducer_ne_escape hcne) hnot heq ht
  | case6 i l e c rest hl start hc ih =>
    -- ESC without the introducer
    obtain ⟨a, ha, hlen, hne⟩ := exists_eq_append_escape hl
    have hnot : ¬ Unfinished (escape :: [] ++ c :: rest) := by
      intro h
      cases h with
      | introduced => exact hc rfl
    have hl' : l = (a ++ [escape]) ++ c :: rest := by simpa using ha
    have hplace : start + 1 = i + (a ++ [escape]).length := by
      have hfirst : start = i + (l.length - ((c :: rest).length + 1)) := rfl
      simp only [List.length_append, List.length_cons, List.length_nil] at hlen hfirst ⊢
      omega
    rw [hplace] at ih ⊢
    rw [hl']
    exact ih.append fun a' t' heq ht => length_le_of_not_unfinished hne (by simp) hnot heq ht

/-! ## Both reports -/

/-- The leftmost sequence with the final byte. -/
structure LeftmostMatch (final : UInt8) (str : List UInt8) (i : Nat) (s : ControlSequence) :
    Prop where
  starts : s.bytes <+: str.drop i
  final_eq : s.final = final
  leftmost : ∀ j < i, ∀ s' : ControlSequence, s'.final = final → ¬ s'.bytes <+: str.drop j

def NoMatch (final : UInt8) (str : List UInt8) : Prop :=
  ∀ (j : Nat) (s : ControlSequence), s.final = final → ¬ s.bytes <+: str.drop j

/-- The last ESC of a string is at `i`. -/
structure LastEscape (str : List UInt8) (i : Nat) : Prop where
  here : str[i]? = some escape
  last : ∀ j, i < j → str[j]? ≠ some escape

/-- What `_fep_csi_scan` is to report. -/
structure ScanReport (final : UInt8) (str : List UInt8) (result : CsiScan) : Prop where
  found : ∀ i s, LeftmostMatch final str i s → result = .found i s.length
  incomplete : NoMatch final str → ∀ i, LastEscape str i → Unfinished (str.drop i) →
    result = .incomplete i (str.length - i)
  notFound : NoMatch final str → (∀ i, LastEscape str i → ¬ Unfinished (str.drop i)) →
    result = .notFound

theorem LeftmostMatch.head?_occurrences {final : UInt8} {str : List UInt8} {i : Nat}
    {s : ControlSequence} (h : LeftmostMatch final str i s) :
    (occurrences final 0 str).head? = some (i, s) := by
  have hmem : (i, s) ∈ occurrences final 0 str :=
    mem_occurrences_iff.mpr ⟨i, (Nat.zero_add i).symm, h.starts, h.final_eq⟩
  cases hocc : occurrences final 0 str with
  | nil => exact absurd (hocc ▸ hmem) (by simp)
  | cons o rest =>
    obtain ⟨j, s'⟩ := o
    obtain ⟨a, t, rfl, hj, hs', hrest⟩ := occurrences_eq_cons hocc
    rw [Nat.zero_add] at hj
    rcases List.mem_cons.mp (hocc ▸ hmem) with heq | hlater
    · rw [heq]
      rfl
    · -- another one starts before
      have hle : j + s'.length ≤ i := le_of_mem_occurrences (hrest ▸ hlater)
      have hpos : 0 < s'.length := by simp [ControlSequence.length]
      refine absurd ?_ (h.leftmost j (by omega) s' hs')
      rw [hj, List.drop_left]
      exact List.prefix_append s'.bytes t

theorem noMatch_iff {final : UInt8} {str : List UInt8} :
    NoMatch final str ↔ occurrences final 0 str = [] := by
  rw [List.eq_nil_iff_forall_not_mem]
  constructor
  · intro h o ho
    obtain ⟨k, -, hpre, hfinal⟩ := mem_occurrences_iff.mp ho
    exact h k o.2 hfinal hpre
  · intro h j s hfinal hpre
    exact h (j, s) (mem_occurrences_iff.mpr ⟨j, (Nat.zero_add j).symm, hpre, hfinal⟩)

/-- An unfinished sequence starts at the last ESC. -/
theorem lastEscape_append {a t : List UInt8} (h : Unfinished t) :
    LastEscape (a ++ t) a.length := by
  obtain ⟨u, rfl, hu⟩ := h.exists_eq_cons
  refine ⟨by simp, ?_⟩
  intro j hj hget
  obtain ⟨k, rfl⟩ := Nat.exists_eq_add_of_lt hj
  rw [List.getElem?_append_right (by omega), show a.length + k + 1 - a.length = k + 1 from by omega,
    List.getElem?_cons_succ] at hget
  exact hu (List.mem_of_getElem? hget)

theorem LastEscape.unique {str : List UInt8} {i j : Nat} (hi : LastEscape str i)
    (hj : LastEscape str j) : i = j := by
  rcases Nat.lt_trichotomy i j with hlt | heq | hlt
  · exact absurd hj.here (hi.last j hlt)
  · exact heq
  · exact absurd hi.here (hj.last i hlt)

/-- Without a sequence in the string none is found. -/
theorem csiScan_ne_found {final : UInt8} (hlow : final < 0x80) {str : List UInt8}
    (hno : NoMatch final str) (csi len : Nat) : csiScan p str final ≠ .found csi len := by
  intro hscan
  have hfound := found?_csiScan p hlow str
  rw [noMatch_iff.mp hno, hscan] at hfound
  exact absurd hfound (by simp [CsiScan.found?])

theorem csiScan_describes (final : UInt8) (str : List UInt8) :
    (csiScan p str final).Describes 0 str :=
  csiScanLoop_describes p final 0 str

theorem csiScan_report {final : UInt8} (hfinal : isFinal final = true) (str : List UInt8) :
    ScanReport final str (csiScan p str final) := by
  have hlow : final < 0x80 := by
    simp only [isFinal, Bool.and_eq_true, decide_eq_true_eq] at hfinal
    exact Nat.lt_of_le_of_lt hfinal.2 (by decide)
  have hfound := found?_csiScan p hlow str
  have hdescribes := csiScan_describes p final str
  refine ⟨?_, ?_, ?_⟩
  · intro i s h
    rw [h.head?_occurrences] at hfound
    cases hscan : csiScan p str final with
    | found csi len =>
      rw [hscan] at hfound
      obtain ⟨rfl, rfl⟩ := Prod.mk.inj (Option.some.inj hfound)
      rfl
    | incomplete csi len => exact absurd (hscan ▸ hfound) (by simp [CsiScan.found?])
    | notFound => exact absurd (hscan ▸ hfound) (by simp [CsiScan.found?])
  · intro hno i hlast hunfinished
    cases hscan : csiScan p str final with
    | found csi len => exact absurd hscan (csiScan_ne_found p hlow hno csi len)
    | incomplete csi len =>
      rw [hscan] at hdescribes
      obtain ⟨a, t, rfl, ht, rfl, rfl⟩ := hdescribes
      obtain rfl : i = a.length := hlast.unique (lastEscape_append ht)
      rw [Nat.zero_add, List.length_append, Nat.add_sub_cancel_left]
    | notFound =>
      rw [hscan] at hdescribes
      exact absurd hunfinished (hdescribes _ _ (List.take_append_drop i str).symm)
  · intro hno hnone
    cases hscan : csiScan p str final with
    | found csi len => exact absurd hscan (csiScan_ne_found p hlow hno csi len)
    | incomplete csi len =>
      rw [hscan] at hdescribes
      obtain ⟨a, t, rfl, ht, -, -⟩ := hdescribes
      refine absurd ht ?_
      rw [← @List.drop_left _ a t]
      exact hnone a.length (lastEscape_append ht)
    | notFound => rfl

/-- **`_fep_csi_scan` ends, reads only its string and reports the leftmost sequence**, or else the one that
the end of the string cuts off. -/
theorem csiScanRounds_report {final : UInt8} (hfinal : isFinal final = true) (str : List UInt8)
    {fuel : Nat} (hfuel : str.length < fuel) :
    ∃ result, csiScanRounds p str final fuel 0 = .ok (some result) ∧
      ScanReport final str result :=
  ⟨csiScan p str final, csiScanRounds_eq p final (at_zero str) fuel hfuel,
    csiScan_report p hfinal str⟩

/-- A sequence that is cut off behind its parameter. -/
theorem csiScanRounds_report_cut :
    ∃ result, csiScanRounds .x86_64 [escape, 0x5B, 0x33] 0x6D 4 0 = .ok (some result) ∧
      ScanReport 0x6D [escape, 0x5B, 0x33] result :=
  csiScanRounds_report .x86_64 (by decide) [escape, 0x5B, 0x33] (by decide)

end LibFep
