import LibFep.Term.PtyOutput

/-!
# LibFep — what the child may write

Two properties of the tracking of the child's attributes over all its output: that the assertion on SGR
parameters holds, and that the attributes do not depend on how the output is cut into reads.

* **`sgrPasses_iff`** — the parameters that pass: decimal digits, or nothing, that fit an
  `unsigned long`. The scan finds sequences with any parameter bytes.
* **`assertion_holds_iff`** — the assertion holds for the strings whose SGR sequences have such
  parameters.
* **`childRun_attrPty`** — a run of chunks and overlays keeps the attributes if no chunk holds a whole
  SGR sequence that sets others.
* **`cutIndependent_iff`** — the streams whose cutting does not matter. A sequence cut off at the end of
  a chunk is stored in `ptybuf` and never read again.
-/

namespace LibFep

open Lib

variable {loc : Locale}

/-! ## The assertion -/

/-- The parameters are decimal numbers that fit an `unsigned long`, or empty. -/
def DigitParams (p : Platform) (s : ControlSequence) : Prop :=
  ∀ param ∈ sgrParams s, (∀ b ∈ param, isDigit b = true) ∧ digitsValue param ≤ p.ulongMax

instance (p : Platform) (s : ControlSequence) : Decidable (DigitParams p s) :=
  inferInstanceAs (Decidable (∀ param ∈ sgrParams s,
    (∀ b ∈ param, isDigit b = true) ∧ digitsValue param ≤ p.ulongMax))

theorem sgrPasses_iff {p : Platform} {s : ControlSequence} : SgrPasses p s ↔ DigitParams p s :=
  forall₂_congr fun _ hparam => passes_token_iff s.params_ok hparam

/-- A string behind which the buffer holds NULs: the scan gets to all its sequences. -/
theorem reached_eq_self {n : Nat} {sequences : List (Nat × ControlSequence)}
    (h : ∀ o ∈ sequences, o.1 + o.2.length ≤ n) (pos : Nat) :
    reached n pos sequences = sequences := by
  induction sequences generalizing pos with
  | nil => rfl
  | cons o rest ih =>
    have ho := h o List.mem_cons_self
    rw [reached, if_pos (by omega), ih fun o' ho' => h o' (List.mem_cons_of_mem _ ho')]

theorem reached_chunk (chunk : List UInt8) :
    reached (chunk.length : Int).toNat 0 (occurrences sgrFinal 0 chunk) =
      occurrences sgrFinal 0 chunk := by
  refine reached_eq_self (fun o ho => ?_) 0
  have hle := le_length_of_mem_occurrences ho
  simpa using hle

theorem reached_zero (sequences : List (Nat × ControlSequence)) : reached 0 0 sequences = [] := by
  cases sequences with
  | nil => rfl
  | cons o rest =>
    have hpos : 0 < o.2.length := by simp [ControlSequence.length]
    rw [reached, if_neg (by omega)]

theorem ne_assertion_iff (p : Platform) (fep : Fep loc) (str : List UInt8) (strLen : Int) :
    outputStringFromPty p fep str strLen ≠ .error .assertion ↔
      ∀ o ∈ reached strLen.toNat 0 (occurrences sgrFinal 0 str), SgrPasses p o.2 := by
  by_cases hlen : 0 < strLen
  · rcases outputStringFromPty_cases p fep str hlen with
      ⟨hpass, fep', tail, hok, -⟩ | ⟨⟨o, ho, hfail⟩, herror⟩
    · exact iff_of_true (by rw [hok]; simp) hpass
    · exact iff_of_false (fun h => h herror) fun h => hfail (h o ho)
  · rw [outputStringFromPty, if_neg hlen, show strLen.toNat = 0 from by omega, reached_zero]
    exact iff_of_true (by simp) (by simp)

/-- **When the assertion holds**, for any string in any buffer and for one that NULs follow: the
sequences that the scan gets to, in the second case all SGR sequences of the string, have decimal
parameters only. -/
theorem assertion_holds_iff (p : Platform) (fep : Fep loc) :
    (∀ str strLen, outputStringFromPty p fep str strLen ≠ .error .assertion ↔
      ∀ o ∈ reached strLen.toNat 0 (occurrences sgrFinal 0 str), DigitParams p o.2) ∧
    (∀ chunk : List UInt8, outputStringFromPty p fep chunk chunk.length ≠ .error .assertion ↔
      ∀ o ∈ occurrences sgrFinal 0 chunk, DigitParams p o.2) := by
  have hgeneral : ∀ str strLen, outputStringFromPty p fep str strLen ≠ .error .assertion ↔
      ∀ o ∈ reached strLen.toNat 0 (occurrences sgrFinal 0 str), DigitParams p o.2 := by
    intro str strLen
    simp only [ne_assertion_iff, sgrPasses_iff]
  refine ⟨hgeneral, fun chunk => ?_⟩
  rw [hgeneral, reached_chunk]

/-- `ESC [ > 4 ; 1 m`, with which programs set `modifyOtherKeys` of a terminal. -/
def modifyOtherKeys : List UInt8 := [0x1B, 0x5B, 0x3E, 0x34, 0x3B, 0x31, 0x6D]

theorem modifyOtherKeys_aborts :
    outputStringFromPty .x86_64 (Fep.new .c) modifyOtherKeys modifyOtherKeys.length =
      .error .assertion :=
  outputStringFromPty_of_error (by decide) (by decide +kernel)

/-! ## Runs of chunks and overlays -/

inductive ChildOp where
  /-- A chunk of the child's output, in a buffer that holds NULs behind it. -/
  | chunk (bytes : List UInt8)
  | cursorText (text : List UInt8) (attr : FepAttribute)
  | statusText (text : List UInt8) (attr : FepAttribute)
  | winch (reported : Winsize)

def childStep (p : Platform) (fep : Fep loc) : ChildOp → Except Fault (Fep loc)
  | .chunk bytes => outputStringFromPty p fep bytes bytes.length
  | .cursorText text attr => outputCursorText fep text attr
  | .statusText text attr => outputStatusText fep text attr
  | .winch reported => handleWinchSignal fep reported

def childRun (p : Platform) (fep : Fep loc) (ops : List ChildOp) : Except Fault (Fep loc) :=
  ops.foldlM (childStep p) fep

/-- The chunks of a run. -/
def chunks (ops : List ChildOp) : List (List UInt8) :=
  ops.filterMap fun
    | .chunk bytes => some bytes
    | _ => none

/-- A run that cuts a stream into chunks that are not empty. -/
structure Cuts (stream : List UInt8) (ops : List ChildOp) : Prop where
  flatten : (chunks ops).flatten = stream
  ne_nil : ∀ chunk ∈ chunks ops, chunk ≠ []

/-- The attributes after a stream do not depend on the cutting, nor on the overlays in between. -/
def CutIndependent (p : Platform) (fep : Fep loc) (stream : List UInt8) : Prop :=
  ∀ ops ops' fep₁ fep₂, Cuts stream ops → Cuts stream ops' → childRun p fep ops = .ok fep₁ →
    childRun p fep ops' = .ok fep₂ → fep₁.attrPty = fep₂.attrPty

/-- What a chunk does to the attributes of the child. -/
theorem outputStringFromPty_chunk {p : Platform} {fep fep' : Fep loc} {bytes : List UInt8}
    (h : outputStringFromPty p fep bytes bytes.length = .ok fep') :
    (∀ o ∈ occurrences sgrFinal 0 bytes, SgrPasses p o.2) ∧
      fep'.attrPty = lastAttr p fep.sgrCodes fep.attrPty (occurrences sgrFinal 0 bytes) ∧
      fep'.sgrCodes = fep.sgrCodes := by
  by_cases hlen : 0 < (bytes.length : Int)
  · rcases outputStringFromPty_cases p fep bytes hlen with
      ⟨hpass, fep'', tail, hok, hshown⟩ | ⟨-, herror⟩
    · rw [reached_chunk] at hpass hshown
      rw [h, Except.ok.injEq] at hok
      subst hok
      exact ⟨hpass, hshown.attrPty, hshown.sgrCodes⟩
    · rw [h] at herror
      exact absurd herror (by simp)
  · obtain rfl : bytes = [] := List.length_eq_zero_iff.mp (by omega)
    rw [outputStringFromPty, if_neg hlen, Except.ok.injEq] at h
    subst h
    exact ⟨by simp, rfl, rfl⟩

theorem lastAttr_eq_of_forall {p : Platform} {codes : SgrCodes} {a : FepSgrAttr}
    {sequences : List (Nat × ControlSequence)}
    (h : ∀ o ∈ sequences, sgrAttr p codes o.2 = a) : lastAttr p codes a sequences = a := by
  unfold lastAttr
  cases hlast : sequences.getLast? with
  | none => rfl
  | some o => exact h o (List.mem_of_getLast? hlast)

/-- The chunk or overlay keeps the attributes of the child. -/
theorem childStep_attrPty {p : Platform} {fep fep' : Fep loc} {op : ChildOp}
    (h : childStep p fep op = .ok fep')
    (hkeep : ∀ bytes, op = .chunk bytes → ∀ o ∈ occurrences sgrFinal 0 bytes, SgrPasses p o.2 →
      sgrAttr p fep.sgrCodes o.2 = fep.attrPty) :
    fep'.attrPty = fep.attrPty ∧ fep'.sgrCodes = fep.sgrCodes := by
  cases op with
  | chunk bytes =>
    obtain ⟨hpass, hattr, hcodes⟩ := outputStringFromPty_chunk h
    rw [lastAttr_eq_of_forall fun o ho => hkeep bytes rfl o ho (hpass o ho)] at hattr
    exact ⟨hattr, hcodes⟩
  | cursorText text attr =>
    have hframe := outputCursorText_frame h
    exact ⟨hframe.attrPty, hframe.sgrCodes⟩
  | statusText text attr =>
    have hframe := outputStatusText_frame h
    exact ⟨hframe.attrPty, hframe.sgrCodes⟩
  | winch reported =>
    have hframe := handleWinchSignal_frame h
    exact ⟨hframe.attrPty, hframe.sgrCodes⟩

/-- **A run keeps the attributes of the child if no chunk holds a whole sequence that sets others.** -/
theorem childRun_attrPty {p : Platform} {fep fep' : Fep loc} {ops : List ChildOp}
    (h : childRun p fep ops = .ok fep')
    (hkeep : ∀ bytes ∈ chunks ops, ∀ o ∈ occurrences sgrFinal 0 bytes, SgrPasses p o.2 →
      sgrAttr p fep.sgrCodes o.2 = fep.attrPty) :
    fep'.attrPty = fep.attrPty ∧ fep'.sgrCodes = fep.sgrCodes := by
  induction ops generalizing fep with
  | nil =>
    rw [← Except.ok.inj h]
    exact ⟨rfl, rfl⟩
  | cons op ops ih =>
    rw [childRun, List.foldlM_cons] at h
    obtain ⟨fep₁, hstep, hrun⟩ := bind_eq_ok.mp h
    obtain ⟨hattr, hcodes⟩ := childStep_attrPty hstep fun bytes hop =>
      hkeep bytes (by simp [chunks, hop])
    have hrest : ∀ bytes ∈ chunks ops, ∀ o ∈ occurrences sgrFinal 0 bytes, SgrPasses p o.2 →
        sgrAttr p fep₁.sgrCodes o.2 = fep₁.attrPty := by
      intro bytes hbytes
      rw [hattr, hcodes]
      exact hkeep bytes (by
        simp only [chunks, List.filterMap_cons]
        split
        · exact hbytes
        · exact List.mem_cons_of_mem _ hbytes)
    obtain ⟨hattr', hcodes'⟩ := ih hrun hrest
    exact ⟨hattr'.trans hattr, hcodes'.trans hcodes⟩

/-- A sequence in a chunk of a stream is one of the stream. -/
theorem exists_mem_occurrences_flatten {final : UInt8} {chunks : List (List UInt8)}
    {bytes : List UInt8} (hbytes : bytes ∈ chunks) {o : Nat × ControlSequence}
    (ho : o ∈ occurrences final 0 bytes) : ∃ i, (i, o.2) ∈ occurrences final 0 chunks.flatten := by
  obtain ⟨l, r, rfl⟩ := List.append_of_mem hbytes
  obtain ⟨k, hk, hpre, hfinal⟩ := mem_occurrences_iff.mp ho
  refine ⟨l.flatten.length + k, mem_occurrences_iff.mpr ⟨l.flatten.length + k, by simp, ?_, hfinal⟩⟩
  have hle := le_length_of_mem_occurrences ho
  rw [List.flatten_append, List.flatten_cons, ← List.drop_drop, List.drop_left,
    List.drop_append_of_le_length (by omega)]
  exact hpre.trans (List.prefix_append _ _)

/-! ## Streams whose cutting does not matter -/

/-- The beginning of a buffer is shown if the sequences that the scan gets to pass the assertion. -/
theorem exists_outputStringFromPty (p : Platform) (fep : Fep loc) {str : List UInt8} {strLen : Nat}
    (h : ∀ o ∈ reached strLen 0 (occurrences sgrFinal 0 str), SgrPasses p o.2) :
    ∃ fep', outputStringFromPty p fep str strLen = .ok fep' := by
  by_cases hlen : 0 < (strLen : Int)
  · rcases outputStringFromPty_cases p fep str hlen with
      ⟨-, fep', tail, hok, -⟩ | ⟨⟨o, ho, hfail⟩, -⟩
    · exact ⟨fep', hok⟩
    · exact absurd (h o ho) hfail
  · exact ⟨fep, by rw [outputStringFromPty, if_neg hlen]⟩

/-- A chunk whose sequences pass the assertion is shown. -/
theorem exists_childStep_chunk (p : Platform) (fep : Fep loc) (bytes : List UInt8)
    (h : ∀ o ∈ occurrences sgrFinal 0 bytes, SgrPasses p o.2) :
    ∃ fep', childStep p fep (.chunk bytes) = .ok fep' := by
  apply exists_outputStringFromPty p fep
  have hreached := reached_chunk bytes
  rw [Int.toNat_natCast] at hreached
  rwa [hreached]

/-- A stream that is read byte by byte. -/
def bytewise (bytes : List UInt8) : List ChildOp := bytes.map fun b => .chunk [b]

theorem chunks_append (ops ops' : List ChildOp) : chunks (ops ++ ops') = chunks ops ++ chunks ops' :=
  List.filterMap_append

@[simp] theorem chunks_bytewise (bytes : List UInt8) :
    chunks (bytewise bytes) = bytes.map fun b => [b] := by
  induction bytes with
  | nil => rfl
  | cons b bytes ih => exact congrArg ([b] :: ·) ih

theorem flatten_map_singleton (bytes : List UInt8) : (bytes.map fun b => [b]).flatten = bytes := by
  induction bytes with
  | nil => rfl
  | cons b bytes ih => rw [List.map_cons, List.flatten_cons, ih, List.singleton_append]

theorem occurrences_singleton (final : UInt8) (i : Nat) (b : UInt8) :
    occurrences final i [b] = [] := rfl

/-- Read byte by byte, a stream leaves the attributes as they are. -/
theorem exists_childRun_bytewise (p : Platform) (fep : Fep loc) (bytes : List UInt8) :
    ∃ fep', childRun p fep (bytewise bytes) = .ok fep' ∧ fep'.attrPty = fep.attrPty ∧
      fep'.sgrCodes = fep.sgrCodes := by
  have hrun : ∃ fep', childRun p fep (bytewise bytes) = .ok fep' := by
    induction bytes generalizing fep with
    | nil => exact ⟨fep, rfl⟩
    | cons b bytes ih =>
      obtain ⟨fep₁, hstep⟩ := exists_childStep_chunk p fep [b]
        (by simp [occurrences_singleton])
      obtain ⟨fep', hrest⟩ := ih fep₁
      exact ⟨fep', bind_eq_ok.mpr ⟨fep₁, hstep, hrest⟩⟩
  obtain ⟨fep', hok⟩ := hrun
  refine ⟨fep', hok, childRun_attrPty hok ?_⟩
  intro chunk hchunk
  rw [chunks_bytewise] at hchunk
  obtain ⟨b, -, rfl⟩ := List.mem_map.mp hchunk
  simp [occurrences_singleton]

theorem cuts_bytewise (bytes : List UInt8) : Cuts bytes (bytewise bytes) :=
  ⟨by rw [chunks_bytewise, flatten_map_singleton], by simp⟩

/-- A sequence in a chunk of its own, the rest of the stream read byte by byte. -/
theorem cuts_around (a t : List UInt8) (s : ControlSequence) :
    Cuts (a ++ (s.bytes ++ t)) (bytewise a ++ (.chunk s.bytes :: bytewise t)) := by
  have hchunks : chunks (bytewise a ++ (.chunk s.bytes :: bytewise t)) =
      (a.map fun b => [b]) ++ (s.bytes :: t.map fun b => [b]) := by
    rw [chunks_append, chunks_bytewise, ← chunks_bytewise t]
    rfl
  refine ⟨?_, ?_⟩
  · rw [hchunks, List.flatten_append, List.flatten_cons, flatten_map_singleton,
      flatten_map_singleton]
  · rw [hchunks]
    intro chunk hchunk
    rcases List.mem_append.mp hchunk with hchunk | hchunk
    · obtain ⟨b, -, rfl⟩ := List.mem_map.mp hchunk
      simp
    · rcases List.mem_cons.mp hchunk with rfl | hchunk
      · simp [ControlSequence.bytes]
      · obtain ⟨b, -, rfl⟩ := List.mem_map.mp hchunk
        simp

/-- Read in this way, the stream leaves the attributes that the sequence sets. -/
theorem exists_childRun_around (p : Platform) (fep : Fep loc) (a t : List UInt8)
    {s : ControlSequence} (hfinal : s.final = sgrFinal) (hpass : SgrPasses p s) :
    ∃ fep', childRun p fep (bytewise a ++ (.chunk s.bytes :: bytewise t)) = .ok fep' ∧
      fep'.attrPty = sgrAttr p fep.sgrCodes s := by
  have hocc : occurrences sgrFinal 0 s.bytes = [(0, s)] := by
    simpa using occurrences_of_prefix hfinal [] 0
  obtain ⟨fep₁, hok₁, -, hcodes₁⟩ := exists_childRun_bytewise p fep a
  obtain ⟨fep₂, hok₂⟩ := exists_childStep_chunk p fep₁ s.bytes (by simpa [hocc] using hpass)
  have hattr₂ := (outputStringFromPty_chunk hok₂).2.1
  rw [hocc] at hattr₂
  obtain ⟨fep₃, hok₃, hattr₃, -⟩ := exists_childRun_bytewise p fep₂ t
  refine ⟨fep₃, ?_, ?_⟩
  · rw [childRun, List.foldlM_append]
    exact bind_eq_ok.mpr ⟨fep₁, hok₁, bind_eq_ok.mpr ⟨fep₂, hok₂, hok₃⟩⟩
  · rw [hattr₃, hattr₂, hcodes₁]
    rfl

/-- **The cutting does not matter exactly when no SGR sequence of the stream that can be read sets
other attributes than those at the start.** Read byte by byte, no sequence is ever recognised; with
one sequence in a chunk of its own, that one is. -/
theorem cutIndependent_iff (p : Platform) (fep : Fep loc) (stream : List UInt8) :
    CutIndependent p fep stream ↔
      ∀ o ∈ occurrences sgrFinal 0 stream, SgrPasses p o.2 →
        sgrAttr p fep.sgrCodes o.2 = fep.attrPty := by
  constructor
  · intro hcut o ho hpass
    obtain ⟨k, -, ⟨t, ht⟩, hfinal⟩ := mem_occurrences_iff.mp ho
    have hcuts := cuts_around (stream.take k) t o.2
    rw [ht, List.take_append_drop] at hcuts
    obtain ⟨fep₁, hok₁, hattr₁, -⟩ := exists_childRun_bytewise p fep stream
    obtain ⟨fep₂, hok₂, hattr₂⟩ := exists_childRun_around p fep (stream.take k) t hfinal hpass
    have heq := hcut _ _ _ _ (cuts_bytewise stream) hcuts hok₁ hok₂
    rw [hattr₁, hattr₂] at heq
    exact heq.symm
  · intro hsame ops ops' fep₁ fep₂ hcuts hcuts' hrun hrun'
    have hkeep : ∀ {ops : List ChildOp}, Cuts stream ops → ∀ bytes ∈ chunks ops,
        ∀ o ∈ occurrences sgrFinal 0 bytes, SgrPasses p o.2 →
          sgrAttr p fep.sgrCodes o.2 = fep.attrPty := by
      intro ops hcuts bytes hbytes o ho hpass
      obtain ⟨i, hi⟩ := exists_mem_occurrences_flatten hbytes ho
      rw [hcuts.flatten] at hi
      exact hsame (i, o.2) hi hpass
    rw [(childRun_attrPty hrun (hkeep hcuts)).1, (childRun_attrPty hrun' (hkeep hcuts')).1]

/-- `ESC [ 31 m`: a red foreground. -/
def setRed : List UInt8 := [0x1B, 0x5B, 0x33, 0x31, 0x6D]

/-- Read in two parts, the sequence is not recognised. -/
theorem not_cutIndependent_setRed : ¬ CutIndependent .x86_64 (Fep.new .c) setRed := by
  intro h
  have hrun (ops : List ChildOp) {a : FepSgrAttr}
      (hmap : (childRun .x86_64 (Fep.new .c) ops).map Fep.attrPty = .ok a) :
      ∃ fep, childRun .x86_64 (Fep.new .c) ops = .ok fep ∧ fep.attrPty = a := by
    match hok : childRun .x86_64 (Fep.new .c) ops with
    | .ok fep =>
      rw [hok] at hmap
      exact ⟨fep, rfl, Except.ok.inj hmap⟩
    | .error fault =>
      rw [hok] at hmap
      exact absurd hmap (by simp [Except.map])
  obtain ⟨fep₁, hok₁, hattr₁⟩ := hrun [.chunk setRed] (a := ⟨0, 31, 0⟩) (by decide +kernel)
  obtain ⟨fep₂, hok₂, hattr₂⟩ := hrun [.chunk (setRed.take 2), .chunk (setRed.drop 2)]
    (a := fepEmptyAttr) (by decide +kernel)
  have heq := h _ _ _ _ ⟨rfl, by decide⟩ ⟨rfl, by decide⟩ hok₁ hok₂
  rw [hattr₁, hattr₂] at heq
  exact absurd heq (by decide)

end LibFep
