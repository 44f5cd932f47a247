import LibFep.Term.Output

/-!
# LibFep — the child's output

`_fep_output_string_from_pty` of `fep/output.c`. The bytes go to the terminal as they are; the SGR
sequences in them are read to follow the attributes the child has set.

The scan for the next sequence starts behind the last one, but is given the length of the whole
string again, so that it looks at bytes behind the string.

* **`reached`** — the sequences the scan gets to: each ends at most `str_len` bytes behind the end of
  the one before it.
* **`scanSgr_attr`** — the scan reads these sequences in turn.
* **`outputStringFromPty_cases`** — the whole function: it fails the assertion on the parameters of
  one of them, or returns with the attributes of the last.
-/

namespace LibFep

open Lib

variable {loc : Locale}

/-- The final byte of an SGR sequence. -/
def sgrFinal : UInt8 := 0x6D

/-- `ESC [ params m`. -/
def sgrOf (params : List UInt8) (h : ∀ b ∈ params, isParam b = true) : ControlSequence where
  params := params
  intermediates := []
  final := sgrFinal
  params_ok := h
  intermediates_ok := List.forall_mem_nil _
  final_ok := by decide

/-! ## `_fep_output_string_from_pty` -/

/-- The `len` bytes of a buffer from offset `pos` on. Behind the bytes of `str` the buffer holds NULs. -/
def window (str : List UInt8) (pos len : Nat) : List UInt8 :=
  (str.drop pos ++ List.replicate len 0).take len

theorem window_take {str : List UInt8} {len : Nat} (h : len ≤ str.length) :
    window str 0 len = str.take len := by
  rw [window, List.drop_zero, List.take_append_of_le_length h]

theorem occurrences_replicate_zero (final : UInt8) (i n : Nat) :
    occurrences final i (List.replicate n 0) = [] := by
  refine occurrences_of_ne final ?_ i
  intro b hb
  rw [List.eq_of_mem_replicate hb]
  decide

/-- The sequences in a window are those that end in it: the NULs add none. -/
theorem occurrences_window (final : UInt8) (i : Nat) (str : List UInt8) (pos len : Nat) :
    occurrences final i (window str pos len) =
      (occurrences final i (str.drop pos)).filter fun o => o.1 + o.2.length ≤ i + len := by
  have hstop : ∀ c ∈ (List.replicate len (0 : UInt8)).head?, Stops c := by
    intro c hc
    rw [List.eq_of_mem_replicate (List.mem_of_mem_head? hc)]
    exact stops_nul
  rw [window, occurrences_take, occurrences_append final _ hstop, occurrences_replicate_zero,
    List.append_nil]

/-- The bytes of the sequence found, and how far it moves the start of the next scan. -/
theorem csiScan_window_found {p : Platform} {str : List UInt8} {pos len csi n : Nat}
    (h : csiScan p (window str pos len) sgrFinal = .found csi n) :
    ∃ s : ControlSequence, s.bytes <+: str.drop (pos + csi) ∧ s.length = n := by
  have hfound := found?_csiScan p (show sgrFinal < 0x80 by decide) (window str pos len)
  rw [h, occurrences_window] at hfound
  obtain ⟨o, ho, hcsi⟩ := Option.map_eq_some_iff.mp hfound.symm
  obtain ⟨k, hk, hpre, -⟩ :=
    mem_occurrences_iff.mp (List.mem_filter.mp (List.mem_of_mem_head? ho)).1
  refine ⟨o.2, ?_, (Prod.mk.inj hcsi).2⟩
  rw [List.drop_drop] at hpre
  rwa [← (Prod.mk.inj hcsi).1, hk, Nat.zero_add]

/-- The loop over the SGR sequences, from offset `pos` on: the last value of `attr_pty`, and the sequence
that the end of the window cuts off. -/
def scanSgr (p : Platform) (codes : SgrCodes) (str : List UInt8) (strLen pos : Nat)
    (attrPty : FepSgrAttr) : Except Fault (FepSgrAttr × List UInt8) :=
  match _ : csiScan p (window str pos strLen) sgrFinal with
  | .found csi n => do
    let sgr := ((window str pos strLen).drop csi).take n
    let attrPty ←
      match csiParse sgr 0x5B with
      | some (csi, _) => sgrParamsToAttr p (strsplit csi.params [0x3B] (by simp)) codes
      | none => .ok attrPty
    scanSgr p codes str strLen (pos + csi + n) attrPty
  | .incomplete csi n => .ok (attrPty, ((window str pos strLen).drop csi).take n)
  | .notFound => .ok (attrPty, [])
  termination_by str.length - pos
  decreasing_by
    obtain ⟨s, hpre, hn⟩ := csiScan_window_found ‹_›
    have hlen := hpre.length_le
    rw [s.length_bytes, List.length_drop] at hlen
    have hpos : 0 < s.length := by simp [ControlSequence.length]
    omega

/-- The end of `_fep_output_string_from_pty`: the cursor text that the output might have overwritten is
shown again. -/
def restoreCursorText (fep : Fep loc) : Except Fault (Fep loc) :=
  match fep.cursorText with
  | some c => outputCursorText { fep with cursorText := none } c.text fep.cursorTextAttr
  | none => .ok fep

def outputStringFromPty (p : Platform) (fep : Fep loc) (str : List UInt8) (strLen : Int) :
    Except Fault (Fep loc) :=
  if 0 < strLen then do
    let fep := applyAttr fep fep.attrPty
    let fep := writeTty fep (window str 0 strLen.toNat)
    let (attrPty, sgr) ← scanSgr p fep.sgrCodes str strLen.toNat 0 fep.attrPty
    restoreCursorText { fep with
      attrPty := attrPty
      attr := attrPty
      ptybuf := fep.ptybuf ++ sgr
      cursor := ⟨-1, -1⟩ }
  else .ok fep

/-! ## The sequences that the scan gets to -/

/-- Those of a list of sequences that the scan gets to, from offset `pos` on. -/
def reached (strLen : Nat) : Nat → List (Nat × ControlSequence) → List (Nat × ControlSequence)
  | _, [] => []
  | pos, o :: rest =>
    if o.1 + o.2.length ≤ pos + strLen then o :: reached strLen (o.1 + o.2.length) rest else []

/-- The parameters of a sequence, split. -/
def sgrParams (s : ControlSequence) : List (List UInt8) := strsplit s.params [0x3B] (by simp)

/-- All parameters pass the assertion. -/
def SgrPasses (p : Platform) (s : ControlSequence) : Prop := ParamsPass p (sgrParams s)

instance (p : Platform) (s : ControlSequence) : Decidable (SgrPasses p s) :=
  inferInstanceAs (Decidable (ParamsPass p (sgrParams s)))

/-- The attributes that a sequence sets. -/
def sgrAttr (p : Platform) (codes : SgrCodes) (s : ControlSequence) : FepSgrAttr :=
  (paramValues p (sgrParams s)).foldl (sgrApplyParam codes) fepEmptyAttr

/-- The attributes that the last sequence sets, or those before if there is none. -/
def lastAttr (p : Platform) (codes : SgrCodes) (attrPty : FepSgrAttr)
    (sequences : List (Nat × ControlSequence)) : FepSgrAttr :=
  (sequences.getLast?.map fun o => sgrAttr p codes o.2).getD attrPty

theorem CsiScan.eq_found {r : CsiScan} {csi len : Nat} (h : r.found? = some (csi, len)) :
    r = .found csi len := by
  cases r with
  | found csi' len' =>
    obtain ⟨rfl, rfl⟩ := Prod.mk.inj (Option.some.inj h)
    rfl
  | incomplete csi' len' => exact absurd h (by simp [CsiScan.found?])
  | notFound => exact absurd h (by simp [CsiScan.found?])

/-- One scan of a window: it finds the next sequence if it ends in the window. -/
theorem csiScan_window_cases (p : Platform) (str : List UInt8) (pos len : Nat) :
    (∃ k s, csiScan p (window str pos len) sgrFinal = .found k s.length ∧ k + s.length ≤ len ∧
      ((window str pos len).drop k).take s.length = s.bytes ∧
      occurrences sgrFinal pos (str.drop pos) = (pos + k, s) ::
        occurrences sgrFinal (pos + k + s.length) (str.drop (pos + k + s.length))) ∨
    ((csiScan p (window str pos len) sgrFinal).found? = none ∧
      reached len pos (occurrences sgrFinal pos (str.drop pos)) = []) := by
  have hfound := found?_csiScan p (show sgrFinal < 0x80 by decide) (window str pos len)
  have hshift := occurrences_add sgrFinal 0 pos (str.drop pos)
  rw [Nat.zero_add] at hshift
  cases hocc : occurrences sgrFinal 0 (str.drop pos) with
  | nil =>
    rw [occurrences_window, hocc] at hfound
    rw [hocc] at hshift
    exact Or.inr ⟨hfound, by rw [hshift]; rfl⟩
  | cons o rest =>
    obtain ⟨k, s⟩ := o
    obtain ⟨a, t, hdrop, hk, -, hrest⟩ := occurrences_eq_cons hocc
    rw [hocc] at hshift
    by_cases hfit : k + s.length ≤ len
    -- the first sequence ends in the window, so that the scan finds this one
    · have hwindow : (k, s) ∈ occurrences sgrFinal 0 (window str pos len) := by
        rw [occurrences_window, hocc]
        exact List.mem_filter.mpr ⟨List.mem_cons_self, by simpa using hfit⟩
      rw [occurrences_window, hocc, List.filter_cons_of_pos (by simpa using hfit)] at hfound
      obtain ⟨k', hk', hpre, -⟩ := mem_occurrences_iff.mp hwindow
      obtain rfl : k = k' := by simpa using hk'
      refine Or.inl ⟨k, s, CsiScan.eq_found hfound, hfit, ?_, ?_⟩
      · rw [← s.length_bytes]
        exact (List.prefix_iff_eq_take.mp hpre).symm
      · have ht : str.drop (pos + k + s.length) = t := by
          rw [Nat.add_assoc, ← List.drop_drop, hdrop, hk, Nat.zero_add, ← s.length_bytes,
            ← List.append_assoc, List.drop_left' (by simp)]
        rw [hshift, List.map_cons, ht, hrest, ← occurrences_add, Nat.add_comm k pos,
          show k + s.length + pos = pos + k + s.length from by omega]
    -- it does not, and neither do those behind it
    · have hnone : (rest.filter fun o => o.1 + o.2.length ≤ 0 + len) = [] := by
        rw [List.filter_eq_nil_iff]
        intro o ho
        rw [hrest] at ho
        have hle := le_of_mem_occurrences ho
        simp only [decide_eq_true_eq]
        omega
      rw [occurrences_window, hocc, List.filter_cons_of_neg (by simpa using hfit), hnone] at hfound
      refine Or.inr ⟨hfound, ?_⟩
      rw [hshift, List.map_cons, reached, if_neg (by dsimp only; omega)]

/-- A sequence read. -/
theorem sgrParamsToAttr_params (p : Platform) (codes : SgrCodes) (s : ControlSequence) :
    sgrParamsToAttr p (strsplit s.params [0x3B] (by simp)) codes =
      if SgrPasses p s then .ok (sgrAttr p codes s) else .error .assertion :=
  sgrParamsToAttr_eq p (sgrParams s) codes

theorem lastAttr_cons (p : Platform) (codes : SgrCodes) (attrPty : FepSgrAttr)
    (o : Nat × ControlSequence) (rest : List (Nat × ControlSequence)) :
    lastAttr p codes attrPty (o :: rest) = lastAttr p codes (sgrAttr p codes o.2) rest := by
  cases rest with
  | nil => rfl
  | cons o' rest =>
    rw [lastAttr, lastAttr, List.getLast?_cons_cons]
    rw [List.getLast?_eq_some_getLast (List.cons_ne_nil o' rest)]
    rfl

/-- A round of the loop that finds a sequence reads it and goes on behind it. -/
theorem scanSgr_found {p : Platform} {codes : SgrCodes} {str : List UInt8} {strLen pos k : Nat}
    {s : ControlSequence} (attrPty : FepSgrAttr)
    (hscan : csiScan p (window str pos strLen) sgrFinal = .found k s.length)
    (hbytes : ((window str pos strLen).drop k).take s.length = s.bytes) :
    scanSgr p codes str strLen pos attrPty =
      if SgrPasses p s then scanSgr p codes str strLen (pos + k + s.length) (sgrAttr p codes s)
      else .error .assertion := by
  have hparse : csiParse (((window str pos strLen).drop k).take s.length) 0x5B =
      some (⟨s.params, s.intermediates, s.final⟩, s.length) := by
    rw [hbytes]
    simpa using csiParse_bytes s []
  rw [scanSgr]
  split
  · next csi n hscan' =>
    rw [hscan, CsiScan.found.injEq] at hscan'
    obtain ⟨rfl, rfl⟩ := hscan'
    dsimp only
    rw [hparse]
    dsimp only
    rw [sgrParamsToAttr_params]
    split
    · rfl
    · rfl
  · next hscan' =>
    rw [hscan] at hscan'
    exact absurd hscan' (by simp)
  · next hscan' =>
    rw [hscan] at hscan'
    exact absurd hscan' (by simp)

/-- The bytes of the sequence that the end of a window cuts off. -/
def CsiScan.tail (window : List UInt8) : CsiScan → List UInt8
  | .incomplete csi n => (window.drop csi).take n
  | _ => []

/-- The last round of the loop keeps the attributes. -/
theorem scanSgr_none {p : Platform} (codes : SgrCodes) {str : List UInt8} {strLen pos : Nat}
    (attrPty : FepSgrAttr) (hscan : (csiScan p (window str pos strLen) sgrFinal).found? = none) :
    scanSgr p codes str strLen pos attrPty =
      .ok (attrPty, (csiScan p (window str pos strLen) sgrFinal).tail (window str pos strLen)) := by
  rw [scanSgr]
  split
  · next hscan' =>
    rw [hscan'] at hscan
    exact absurd hscan (by simp [CsiScan.found?])
  · next hscan' =>
    rw [hscan']
    rfl
  · next hscan' =>
    rw [hscan']
    rfl

/-- **The scan reads the sequences it gets to in turn.** Induction on the rounds, each of which gets
closer to the end of the buffer. -/
theorem scanSgr_attr (p : Platform) (codes : SgrCodes) (str : List UInt8) (strLen pos : Nat)
    (attrPty : FepSgrAttr) :
    (scanSgr p codes str strLen pos attrPty).map Prod.fst =
      if ∀ o ∈ reached strLen pos (occurrences sgrFinal pos (str.drop pos)), SgrPasses p o.2 then
        .ok (lastAttr p codes attrPty
          (reached strLen pos (occurrences sgrFinal pos (str.drop pos))))
      else .error .assertion := by
  induction hn : (occurrences sgrFinal pos (str.drop pos)).length using Nat.strong_induction_on
    generalizing pos attrPty with
  | _ n ih =>
    rcases csiScan_window_cases p str pos strLen with
      ⟨k, s, hscan, hfit, hbytes, hocc⟩ | ⟨hnone, hreached⟩
    · have hreached : reached strLen pos (occurrences sgrFinal pos (str.drop pos)) =
          (pos + k, s) :: reached strLen (pos + k + s.length)
            (occurrences sgrFinal (pos + k + s.length) (str.drop (pos + k + s.length))) := by
        rw [hocc, reached, if_pos (by dsimp only; omega)]
      rw [scanSgr_found attrPty hscan hbytes, hreached, lastAttr_cons]
      by_cases hpass : SgrPasses p s
      · rw [if_pos hpass, ih _ (by rw [← hn, hocc]; simp) _ _ rfl]
        exact if_congr (by simp [hpass]) rfl rfl
      · rw [if_neg hpass, if_neg (by simp [hpass])]
        rfl
    · rw [scanSgr_none codes attrPty hnone, hreached]
      rfl

/-! ## The whole function -/

/-- What showing the cursor text again leaves: its own attributes and an empty `ptybuf`. -/
theorem restoreCursorText_ok (fep : Fep loc) :
    ∃ fep', restoreCursorText fep = .ok fep' ∧ OverlayFrame fep fep' ∧
      fep'.cursorText = fep.cursorText ∧
      fep'.attr = (if fep.cursorText.isSome then fep.attrTty else fep.attr) ∧
      fep'.ptybuf = if fep.cursorText.isSome then [] else fep.ptybuf := by
  unfold restoreCursorText
  cases hc : fep.cursorText with
  | none => exact ⟨fep, rfl, .refl fep, hc, rfl, rfl⟩
  | some c =>
    obtain ⟨fep', hok, hframe, hptybuf, hattr, htext⟩ :=
      drawCursorText_of_converts { fep with cursorText := none } c fep.cursorTextAttr
    exact ⟨fep', hok, ⟨hframe.attrTty, hframe.attrPty, hframe.sgrCodes⟩, htext, hattr, hptybuf⟩

/-- The state after a string of the child, when the scan ends with the attributes `a` and the
sequence `tail` cut off. -/
structure ChildShown (fep : Fep loc) (a : FepSgrAttr) (tail : List UInt8) (fep' : Fep loc) :
    Prop where
  attrPty : fep'.attrPty = a
  attrTty : fep'.attrTty = fep.attrTty
  sgrCodes : fep'.sgrCodes = fep.sgrCodes
  cursorText : fep'.cursorText = fep.cursorText
  attr : fep'.attr = if fep.cursorText.isSome then fep.attrTty else a
  ptybuf : fep'.ptybuf = if fep.cursorText.isSome then [] else fep.ptybuf ++ tail

theorem outputStringFromPty_of_ok {p : Platform} {fep : Fep loc} {str : List UInt8} {strLen : Int}
    (hlen : 0 < strLen) {a : FepSgrAttr} {tail : List UInt8}
    (hscan : scanSgr p fep.sgrCodes str strLen.toNat 0 fep.attrPty = .ok (a, tail)) :
    ∃ fep', outputStringFromPty p fep str strLen = .ok fep' ∧ ChildShown fep a tail fep' := by
  obtain ⟨hframe, hptybuf, htext⟩ := applyAttr_frame fep fep.attrPty
  obtain ⟨shown, hshown⟩ : ∃ shown, shown = writeTty (applyAttr fep fep.attrPty)
      (window str 0 strLen.toNat) := ⟨_, rfl⟩
  obtain ⟨fep', hok, hrestore, htext', hattr, hptybuf'⟩ := restoreCursorText_ok { shown with
    attrPty := a, attr := a, ptybuf := shown.ptybuf ++ tail, cursor := ⟨-1, -1⟩ }
  refine ⟨fep', ?_, ?_⟩
  · rw [outputStringFromPty, if_pos hlen]
    refine bind_eq_ok.mpr ⟨(a, tail), ?_, ?_⟩
    · show scanSgr p (applyAttr fep fep.attrPty).sgrCodes str strLen.toNat 0
        (applyAttr fep fep.attrPty).attrPty = _
      rw [hframe.sgrCodes, hframe.attrPty, hscan]
    · rw [← hok, hshown]
  · subst hshown
    have hc : (applyAttr fep fep.attrPty).cursorText.isSome = fep.cursorText.isSome := by rw [htext]
    refine ⟨hrestore.attrPty, hrestore.attrTty.trans hframe.attrTty,
      hrestore.sgrCodes.trans hframe.sgrCodes, htext'.trans htext, ?_, ?_⟩
    · change fep'.attr = if (applyAttr fep fep.attrPty).cursorText.isSome then
        (applyAttr fep fep.attrPty).attrTty else a at hattr
      rw [hattr, hc, hframe.attrTty]
    · change fep'.ptybuf = if (applyAttr fep fep.attrPty).cursorText.isSome then [] else
        (applyAttr fep fep.attrPty).ptybuf ++ tail at hptybuf'
      rw [hptybuf', hc, hptybuf]

theorem outputStringFromPty_of_error {p : Platform} {fep : Fep loc} {str : List UInt8}
    {strLen : Int} (hlen : 0 < strLen) {fault : Fault}
    (hscan : scanSgr p fep.sgrCodes str strLen.toNat 0 fep.attrPty = .error fault) :
    outputStringFromPty p fep str strLen = .error fault := by
  obtain ⟨hframe, -, -⟩ := applyAttr_frame fep fep.attrPty
  rw [outputStringFromPty, if_pos hlen]
  show (scanSgr p (applyAttr fep fep.attrPty).sgrCodes str strLen.toNat 0
    (applyAttr fep fep.attrPty).attrPty >>= _) = _
  rw [hframe.sgrCodes, hframe.attrPty, hscan]
  rfl

/-- **What the function does**: it fails the assertion if a sequence that the scan gets to has a parameter
that does not pass, and else returns with the attributes of the last of these sequences. -/
theorem outputStringFromPty_cases (p : Platform) (fep : Fep loc) (str : List UInt8) {strLen : Int}
    (hlen : 0 < strLen) :
    ((∀ o ∈ reached strLen.toNat 0 (occurrences sgrFinal 0 str), SgrPasses p o.2) ∧
      ∃ fep' tail, outputStringFromPty p fep str strLen = .ok fep' ∧
        ChildShown fep (lastAttr p fep.sgrCodes fep.attrPty
          (reached strLen.toNat 0 (occurrences sgrFinal 0 str))) tail fep') ∨
    ((∃ o ∈ reached strLen.toNat 0 (occurrences sgrFinal 0 str), ¬ SgrPasses p o.2) ∧
      outputStringFromPty p fep str strLen = .error .assertion) := by
  have hattr := scanSgr_attr p fep.sgrCodes str strLen.toNat 0 fep.attrPty
  rw [List.drop_zero] at hattr
  by_cases hpass : ∀ o ∈ reached strLen.toNat 0 (occurrences sgrFinal 0 str), SgrPasses p o.2
  · rw [if_pos hpass] at hattr
    cases hscan : scanSgr p fep.sgrCodes str strLen.toNat 0 fep.attrPty with
    | error fault =>
      rw [hscan] at hattr
      exact absurd hattr (by simp [Except.map])
    | ok r =>
      obtain ⟨a, tail⟩ := r
      rw [hscan] at hattr
      obtain rfl : a = lastAttr p fep.sgrCodes fep.attrPty
        (reached strLen.toNat 0 (occurrences sgrFinal 0 str)) := Except.ok.inj hattr
      obtain ⟨fep', hok, hshown⟩ := outputStringFromPty_of_ok hlen hscan
      exact Or.inl ⟨hpass, fep', tail, hok, hshown⟩
  · rw [if_neg hpass] at hattr
    cases hscan : scanSgr p fep.sgrCodes str strLen.toNat 0 fep.attrPty with
    | error fault =>
      rw [hscan] at hattr
      obtain rfl : fault = .assertion := Except.error.inj hattr
      exact Or.inr ⟨by simpa using hpass, outputStringFromPty_of_error hlen hscan⟩
    | ok r =>
      rw [hscan] at hattr
      exact absurd hattr (by simp [Except.map])

end LibFep
