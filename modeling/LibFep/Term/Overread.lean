import LibFep.Term.ChildOutput

/-!
# LibFep — bytes behind a chunk

`main_loop` gives `_fep_output_string_from_pty` the first part of a buffer whose other bytes are still
to be output. The scan for SGR sequences looks at them too: after a sequence it starts behind it, with
the length it started with.

* **`mem_reached_of_own`** — the scan gets to all sequences of the chunk, whatever follows.
* **`readsOwnChunk_iff`** — when nothing depends on the bytes that follow.
-/

namespace LibFep

open Lib

variable {loc : Locale}

/-- What the function leaves for the next one: the two attributes that it sets, and `ptybuf`. -/
def Fep.tracked (fep : Fep loc) : FepSgrAttr × FepSgrAttr × List UInt8 :=
  (fep.attrPty, fep.attr, fep.ptybuf)

/-- Nothing depends on the bytes behind the first `strLen`. -/
def ReadsOwnChunk (p : Platform) (fep : Fep loc) (str : List UInt8) (strLen : Int) : Prop :=
  ∀ str', window str' 0 strLen.toNat = window str 0 strLen.toNat →
    (outputStringFromPty p fep str' strLen).map Fep.tracked =
      (outputStringFromPty p fep str strLen).map Fep.tracked

/-- The SGR sequences of the chunk. -/
def ownSequences (str : List UInt8) (strLen : Int) : List (Nat × ControlSequence) :=
  occurrences sgrFinal 0 (window str 0 strLen.toNat)

@[simp] theorem length_window (str : List UInt8) (pos len : Nat) :
    (window str pos len).length = len := by
  simp [window]

theorem window_append (w tail : List UInt8) : window (w ++ tail) 0 w.length = w := by
  simp [window]

theorem ChildShown.tracked_eq {fep fep' : Fep loc} {a : FepSgrAttr} {tail : List UInt8}
    (h : ChildShown fep a tail fep') :
    fep'.tracked = (a, if fep.cursorText.isSome then fep.attrTty else a,
      if fep.cursorText.isSome then [] else fep.ptybuf ++ tail) := by
  rw [Fep.tracked, h.attrPty, h.attr, h.ptybuf]

/-- What the scan leaves decides what the function leaves. -/
theorem map_tracked_of_scan {p : Platform} {fep : Fep loc} {str : List UInt8} {strLen : Int}
    (hlen : 0 < strLen) {a : FepSgrAttr} {tail : List UInt8}
    (hscan : scanSgr p fep.sgrCodes str strLen.toNat 0 fep.attrPty = .ok (a, tail)) :
    (outputStringFromPty p fep str strLen).map Fep.tracked =
      .ok (a, if fep.cursorText.isSome then fep.attrTty else a,
        if fep.cursorText.isSome then [] else fep.ptybuf ++ tail) := by
  obtain ⟨fep', hok, hshown⟩ := outputStringFromPty_of_ok hlen hscan
  rw [hok, ← hshown.tracked_eq]
  rfl

/-! ## The sequences of the chunk and those behind it -/

/-- The sequences behind the first one start behind its end. -/
theorem le_of_mem_tail {final : UInt8} {i : Nat} {l : List UInt8} {o : Nat × ControlSequence}
    {rest : List (Nat × ControlSequence)} (h : occurrences final i l = o :: rest) :
    ∃ t, rest = occurrences final (o.1 + o.2.length) t := by
  obtain ⟨a, t, -, -, -, hrest⟩ := occurrences_eq_cons (j := o.1) (s := o.2) h
  exact ⟨t, hrest⟩

/-- The scan gets to every sequence that ends in the chunk, whatever follows. -/
theorem mem_reached {n pos : Nat} {l : List UInt8} {o : Nat × ControlSequence}
    (ho : o ∈ occurrences sgrFinal pos l) (hend : o.1 + o.2.length ≤ n) :
    o ∈ reached n pos (occurrences sgrFinal pos l) := by
  induction hlist : occurrences sgrFinal pos l generalizing pos l with
  | nil =>
    rw [hlist] at ho
    exact absurd ho (by simp)
  | cons first rest ih =>
    obtain ⟨t, hrest⟩ := le_of_mem_tail hlist
    rw [hlist] at ho
    have hfirst : first.1 + first.2.length ≤ pos + n := by
      rcases List.mem_cons.mp ho with rfl | ho
      · omega
      · rw [hrest] at ho
        have hle := le_of_mem_occurrences ho
        omega
    rw [reached, if_pos hfirst]
    rcases List.mem_cons.mp ho with rfl | ho
    · exact List.mem_cons_self
    · rw [hrest] at ho
      exact List.mem_cons_of_mem _ (ih ho hrest.symm)

theorem mem_of_mem_reached {n pos : Nat} {sequences : List (Nat × ControlSequence)}
    {o : Nat × ControlSequence} (ho : o ∈ reached n pos sequences) : o ∈ sequences := by
  induction sequences generalizing pos with
  | nil => exact ho
  | cons first rest ih =>
    rw [reached] at ho
    split at ho
    · rcases List.mem_cons.mp ho with rfl | ho
      · exact List.mem_cons_self
      · exact List.mem_cons_of_mem _ (ih ho)
    · exact absurd ho (by simp)

/-- No sequence that the scan gets to is longer than the chunk. -/
theorem length_le_of_mem_reached {n pos : Nat} {l : List UInt8} {o : Nat × ControlSequence}
    (ho : o ∈ reached n pos (occurrences sgrFinal pos l)) : o.2.length ≤ n := by
  induction hlist : occurrences sgrFinal pos l generalizing pos l with
  | nil =>
    rw [hlist] at ho
    exact absurd ho (by simp [reached])
  | cons first rest ih =>
    obtain ⟨t, hrest⟩ := le_of_mem_tail hlist
    have hpos : pos ≤ first.1 := le_of_mem_occurrences (hlist ▸ List.mem_cons_self)
    rw [hlist, reached] at ho
    split at ho
    · next hfirst =>
      rcases List.mem_cons.mp ho with rfl | ho
      · omega
      · rw [hrest] at ho
        exact ih ho hrest.symm
    · exact absurd ho (by simp)

/-- Behind the sequences of the chunk the scan goes on, at least three bytes into the chunk. -/
theorem exists_reached_append {n : Nat} {own : List (Nat × ControlSequence)}
    (hown : ∀ o ∈ own, o.1 + o.2.length ≤ n) (hne : own ≠ []) (pos : Nat)
    (more : List (Nat × ControlSequence)) :
    ∃ e, 3 ≤ e ∧ reached n pos (own ++ more) = own ++ reached n e more := by
  induction own generalizing pos with
  | nil => exact absurd rfl hne
  | cons o rest ih =>
    have ho := hown o List.mem_cons_self
    rw [List.cons_append, reached, if_pos (by omega)]
    cases rest with
    | nil =>
      refine ⟨o.1 + o.2.length, ?_, rfl⟩
      have hlen : 3 ≤ o.2.length := by simp [ControlSequence.length]
      omega
    | cons o' rest =>
      obtain ⟨e, he, heq⟩ := ih (fun o'' ho'' => hown o'' (List.mem_cons_of_mem _ ho''))
        (by simp) (o.1 + o.2.length)
      exact ⟨e, he, congrArg (o :: ·) heq⟩

/-! ## When nothing depends on what follows -/

/-- `ESC [ m`. -/
def clearSgr : ControlSequence := sgrOf [] (List.forall_mem_nil _)

/-- `ESC [ ? m`, whose parameter does not pass the assertion. -/
def badSgr : ControlSequence := sgrOf [0x3F] (List.all_eq_true.mp rfl)

theorem sgrParams_clearSgr : sgrParams clearSgr = [] := strsplit_of_not_mem (by simp [clearSgr, sgrOf])

theorem not_sgrPasses_badSgr (p : Platform) : ¬ SgrPasses p badSgr := by
  have hparams : sgrParams badSgr = [[0x3F]] := strsplit_of_not_mem (by decide)
  rw [sgrPasses_iff, DigitParams, hparams]
  intro h
  exact absurd ((h [0x3F] (by simp)).1 0x3F (by simp)) (by decide)

/-- A sequence of three bytes is `ESC [ m`. -/
theorem eq_clearSgr {s : ControlSequence} (hfinal : s.final = sgrFinal) (hlen : s.length ≤ 3) :
    s = clearSgr := by
  unfold ControlSequence.length at hlen
  exact ControlSequence.ext (List.length_eq_zero_iff.mp (by omega))
    (List.length_eq_zero_iff.mp (by omega)) hfinal

/-- The chunk has no sequence: the function looks at nothing else. -/
theorem readsOwnChunk_of_nil {p : Platform} {fep : Fep loc} {str : List UInt8} {strLen : Int}
    (hown : ownSequences str strLen = []) : ReadsOwnChunk p fep str strLen := by
  intro str' hagree
  by_cases hlen : 0 < strLen
  · have hnone : (csiScan p (window str 0 strLen.toNat) sgrFinal).found? = none := by
      rw [found?_csiScan p (by decide), show occurrences sgrFinal 0 (window str 0 strLen.toNat) = []
        from hown]
      rfl
    have hscan := scanSgr_none fep.sgrCodes fep.attrPty hnone
    have hscan' := scanSgr_none fep.sgrCodes fep.attrPty (hagree ▸ hnone)
    rw [map_tracked_of_scan hlen hscan, map_tracked_of_scan hlen hscan', hagree]
  · simp only [outputStringFromPty, if_neg hlen]

theorem mem_reached_of_own {str : List UInt8} {strLen : Int} {o : Nat × ControlSequence}
    (ho : o ∈ ownSequences str strLen) :
    o ∈ reached strLen.toNat 0 (occurrences sgrFinal 0 str) := by
  rw [ownSequences, occurrences_window, List.drop_zero] at ho
  obtain ⟨ho, hend⟩ := List.mem_filter.mp ho
  exact mem_reached ho (by simpa using hend)

/-- A sequence of the chunk fails the assertion, whatever follows. -/
theorem readsOwnChunk_of_fails {p : Platform} {fep : Fep loc} {str : List UInt8} {strLen : Int}
    {o : Nat × ControlSequence} (ho : o ∈ ownSequences str strLen) (hfail : ¬ SgrPasses p o.2) :
    ReadsOwnChunk p fep str strLen := by
  have herror : ∀ str', window str' 0 strLen.toNat = window str 0 strLen.toNat →
      outputStringFromPty p fep str' strLen = .error .assertion := by
    intro str' hagree
    have ho' : o ∈ ownSequences str' strLen := by rwa [ownSequences, hagree]
    by_contra hne
    exact hfail ((ne_assertion_iff p fep str' strLen).mp hne o (mem_reached_of_own ho'))
  intro str' hagree
  rw [herror str' hagree, herror str rfl]

/-- The chunk is `ESC [ m` and a text at the cursor is shown again: what follows can only hold more
sequences `ESC [ m`, and the text clears `ptybuf`. -/
theorem readsOwnChunk_of_clear {p : Platform} {fep : Fep loc} {str : List UInt8} {strLen : Int}
    (htext : fep.cursorText.isSome = true) (hchunk : window str 0 strLen.toNat = clearSgr.bytes) :
    ReadsOwnChunk p fep str strLen := by
  have hn : strLen.toNat = 3 := by
    have hlen := congrArg List.length hchunk
    rwa [length_window] at hlen
  have hresult : ∀ str', window str' 0 strLen.toNat = window str 0 strLen.toNat →
      (outputStringFromPty p fep str' strLen).map Fep.tracked =
        .ok (fepEmptyAttr, fep.attrTty, []) := by
    intro str' hagree
    have hclear : ∀ o ∈ reached strLen.toNat 0 (occurrences sgrFinal 0 str'), o.2 = clearSgr := by
      intro o ho
      obtain ⟨-, -, -, hfinal⟩ := mem_occurrences_iff.mp (mem_of_mem_reached ho)
      exact eq_clearSgr hfinal (hn ▸ length_le_of_mem_reached ho)
    have hmem : (0, clearSgr) ∈ ownSequences str' strLen := by
      rw [ownSequences, hagree, hchunk]
      have hocc := occurrences_of_prefix (show clearSgr.final = sgrFinal from rfl) [] 0
      rw [List.append_nil] at hocc
      rw [hocc]
      exact List.mem_cons_self
    have hlast : lastAttr p fep.sgrCodes fep.attrPty
        (reached strLen.toNat 0 (occurrences sgrFinal 0 str')) = fepEmptyAttr := by
      rw [lastAttr, List.getLast?_eq_some_getLast (List.ne_nil_of_mem (mem_reached_of_own hmem)),
        Option.map_some, Option.getD_some, hclear _ (List.getLast_mem _), sgrAttr,
        sgrParams_clearSgr]
      rfl
    rcases outputStringFromPty_cases p fep str' (show 0 < strLen by omega) with
      ⟨-, fep', tail, hok, hshown⟩ | ⟨⟨o, ho, hfail⟩, -⟩
    · rw [hlast] at hshown
      rw [hok]
      exact congrArg Except.ok (hshown.tracked_eq.trans (by rw [htext]; rfl))
    · refine absurd ?_ hfail
      rw [SgrPasses, ParamsPass, hclear o ho, sgrParams_clearSgr]
      simp
  intro str' hagree
  rw [hresult str' hagree, hresult str rfl]

theorem occurrences_append_clear_bad (w : List UInt8) :
    occurrences sgrFinal 0 (w ++ (clearSgr.bytes ++ badSgr.bytes)) =
      occurrences sgrFinal 0 w ++ [(w.length, clearSgr), (w.length + 3, badSgr)] := by
  have hstop : ∀ c ∈ (clearSgr.bytes ++ badSgr.bytes).head?, Stops c := by
    intro c hc
    obtain rfl : escape = c := Option.some.inj hc
    exact stops_escape
  have hbad := occurrences_of_prefix (show badSgr.final = sgrFinal from rfl) [] (w.length + 3)
  rw [List.append_nil, occurrences_nil] at hbad
  rw [occurrences_append sgrFinal w hstop, Nat.zero_add,
    occurrences_of_prefix (show clearSgr.final = sgrFinal from rfl)]
  exact congrArg (_ ++ _ :: ·) hbad

theorem eq_error_of_map {α β : Type} {f : α → β} {x : Except Fault α} {fault : Fault}
    (h : x.map f = .error fault) : x = .error fault := by
  cases x with
  | error fault' => rw [Except.error.inj h]
  | ok a => exact absurd h (by simp [Except.map])

/-- What follows a chunk of more than three bytes can trip the assertion, if the chunk has a sequence:
`ESC [ m` is in reach, and with it four bytes more. -/
theorem not_readsOwnChunk_of_long {p : Platform} {fep : Fep loc} {str : List UInt8} {strLen : Int}
    (hne : ownSequences str strLen ≠ []) (hpass : ∀ o ∈ ownSequences str strLen, SgrPasses p o.2)
    (hlen : 4 ≤ strLen.toNat) : ¬ ReadsOwnChunk p fep str strLen := by
  intro h
  obtain ⟨w, hw⟩ : ∃ w, w = window str 0 strLen.toNat := ⟨_, rfl⟩
  have hwlen : w.length = strLen.toNat := by rw [hw, length_window]
  have hown : ∀ o ∈ occurrences sgrFinal 0 w, o.1 + o.2.length ≤ strLen.toNat := by
    intro o ho
    have hle := le_length_of_mem_occurrences ho
    omega
  -- with nothing behind it
  have hok : outputStringFromPty p fep (w ++ []) strLen ≠ .error .assertion := by
    rw [ne_assertion_iff, List.append_nil, reached_eq_self hown]
    rwa [ownSequences, ← hw] at hpass
  -- with `ESC [ m ESC [ ? m` behind it
  have herror : outputStringFromPty p fep (w ++ (clearSgr.bytes ++ badSgr.bytes)) strLen =
      .error .assertion := by
    by_contra hne'
    obtain ⟨e, he, hreached⟩ := exists_reached_append hown (by rwa [ownSequences, ← hw] at hne) 0
      [(strLen.toNat, clearSgr), (strLen.toNat + 3, badSgr)]
    rw [reached, if_pos (by change strLen.toNat + 3 ≤ _; omega), reached,
      if_pos (by change strLen.toNat + 3 + 4 ≤ strLen.toNat + 3 + _; omega), reached] at hreached
    have hpasses := (ne_assertion_iff p fep _ strLen).mp hne'
    rw [occurrences_append_clear_bad, hwlen, hreached] at hpasses
    exact not_sgrPasses_badSgr p (hpasses (strLen.toNat + 3, badSgr) (by simp))
  have hagree (tail : List UInt8) :
      window (w ++ tail) 0 strLen.toNat = window str 0 strLen.toNat := by
    have happ := window_append w tail
    rw [hwlen] at happ
    rw [happ, hw]
  have hsame := (h _ (hagree [])).trans (h _ (hagree (clearSgr.bytes ++ badSgr.bytes))).symm
  rw [herror] at hsame
  exact hok (eq_error_of_map hsame)

theorem csiScan_nul (p : Platform) : csiScan p (window [] 0 3) sgrFinal = .notFound := by
  rw [csiScan, csiScanLoop]
  rfl

theorem csiScan_nul_escape (p : Platform) :
    csiScan p (window [0, 0, escape] 0 3) sgrFinal = .incomplete 2 1 := by
  rw [csiScan, csiScanLoop]
  rfl

/-- The scan of `ESC [ m` and the three bytes behind it. -/
theorem scanSgr_clearSgr (p : Platform) (codes : SgrCodes) (a : FepSgrAttr) (more : List UInt8)
    (hnone : (csiScan p (window more 0 3) sgrFinal).found? = none) :
    scanSgr p codes (clearSgr.bytes ++ more) 3 0 a =
      .ok (fepEmptyAttr, (csiScan p (window more 0 3) sgrFinal).tail (window more 0 3)) := by
  have hwindow : window (clearSgr.bytes ++ more) 0 3 = clearSgr.bytes :=
    window_append clearSgr.bytes more
  have hocc := occurrences_of_prefix (show clearSgr.final = sgrFinal from rfl) [] 0
  rw [List.append_nil, occurrences_nil] at hocc
  have hfound := found?_csiScan p (show sgrFinal < 0x80 by decide)
    (window (clearSgr.bytes ++ more) 0 3)
  rw [hwindow, hocc] at hfound
  have hnext : window (clearSgr.bytes ++ more) 3 3 = window more 0 3 := by
    simp [window, clearSgr, sgrOf, ControlSequence.bytes]
  have hpass : SgrPasses p clearSgr := by
    rw [SgrPasses, ParamsPass, sgrParams_clearSgr]
    simp
  rw [scanSgr_found a (hwindow ▸ CsiScan.eq_found hfound) (by rw [hwindow]; rfl), if_pos hpass]
  show scanSgr p codes (clearSgr.bytes ++ more) 3 3 (sgrAttr p codes clearSgr) = _
  rw [scanSgr_none _ _ (by rwa [hnext]), hnext, sgrAttr, sgrParams_clearSgr]
  rfl

/-- Behind `ESC [ m`, an ESC at the end of the window is put in `ptybuf`. -/
theorem not_readsOwnChunk_of_clear {p : Platform} {fep : Fep loc} {str : List UInt8} {strLen : Int}
    (htext : fep.cursorText = none) (hchunk : window str 0 strLen.toNat = clearSgr.bytes) :
    ¬ ReadsOwnChunk p fep str strLen := by
  intro h
  have hn : strLen.toNat = 3 := by
    have hlen := congrArg List.length hchunk
    rwa [length_window] at hlen
  have hagree (tail : List UInt8) :
      window (clearSgr.bytes ++ tail) 0 strLen.toNat = window str 0 strLen.toNat := by
    rw [hchunk, hn]
    exact window_append clearSgr.bytes tail
  have hscan₁ : scanSgr p fep.sgrCodes (clearSgr.bytes ++ []) strLen.toNat 0 fep.attrPty =
      .ok (fepEmptyAttr, []) := by
    rw [hn, scanSgr_clearSgr _ _ _ _ (by rw [csiScan_nul]; rfl), csiScan_nul]
    rfl
  have hscan₂ : scanSgr p fep.sgrCodes (clearSgr.bytes ++ [0, 0, escape]) strLen.toNat 0
      fep.attrPty = .ok (fepEmptyAttr, [escape]) := by
    rw [hn, scanSgr_clearSgr _ _ _ _ (by rw [csiScan_nul_escape]; rfl), csiScan_nul_escape]
    rfl
  have hsame := (h _ (hagree [])).trans (h _ (hagree [0, 0, escape])).symm
  rw [map_tracked_of_scan (by omega) hscan₁, map_tracked_of_scan (by omega) hscan₂, htext] at hsame
  simp at hsame

/-- **When the function reads only its own chunk**: the chunk has no SGR sequence, or one that fails the
assertion in any case, or it is `ESC [ m` and a text at the cursor is shown again. -/
theorem readsOwnChunk_iff (p : Platform) (fep : Fep loc) (str : List UInt8) (strLen : Int) :
    ReadsOwnChunk p fep str strLen ↔
      ownSequences str strLen = [] ∨ (∃ o ∈ ownSequences str strLen, ¬ SgrPasses p o.2) ∨
        (fep.cursorText.isSome = true ∧ window str 0 strLen.toNat = clearSgr.bytes) := by
  constructor
  · intro h
    by_contra hcond
    rw [not_or, not_or, not_and] at hcond
    obtain ⟨hne, hpass, hclear⟩ := hcond
    have hpass' : ∀ o ∈ ownSequences str strLen, SgrPasses p o.2 := by simpa using hpass
    by_cases hlen : 4 ≤ strLen.toNat
    · exact not_readsOwnChunk_of_long hne hpass' hlen h
    · -- only `ESC [ m` is as short as this
      obtain ⟨o, ho⟩ := List.exists_mem_of_ne_nil _ hne
      have hend := le_length_of_mem_occurrences ho
      rw [length_window] at hend
      have hlen3 : 3 ≤ o.2.length := by simp [ControlSequence.length]
      obtain ⟨k, hk, hpre, hfinal⟩ := mem_occurrences_iff.mp ho
      obtain rfl : k = 0 := by omega
      have hclear' : o.2 = clearSgr := eq_clearSgr hfinal (by omega)
      rw [List.drop_zero, hclear'] at hpre
      have hchunk : window str 0 strLen.toNat = clearSgr.bytes :=
        (hpre.eq_of_length_le (by rw [length_window, clearSgr.length_bytes, ← hclear']; omega)).symm
      have htext : fep.cursorText = none := by
        by_contra hsome
        exact hclear (Option.isSome_iff_ne_none.mpr hsome) hchunk
      exact not_readsOwnChunk_of_clear htext hchunk h
  · rintro (hnil | ⟨o, ho, hfail⟩ | ⟨htext, hchunk⟩)
    · exact readsOwnChunk_of_nil hnil
    · exact readsOwnChunk_of_fails ho hfail
    · exact readsOwnChunk_of_clear htext hchunk

/-- `ESC [ 32 m` behind the chunk sets the foreground of the child. -/
theorem not_readsOwnChunk_setRed :
    ¬ ReadsOwnChunk .x86_64 (Fep.new .c) setRed setRed.length := by
  intro h
  have hsame := h (setRed ++ [0x1B, 0x5B, 0x33, 0x32, 0x6D]) (by decide)
  exact absurd hsame (by decide +kernel)

end LibFep
