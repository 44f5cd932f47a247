import LibFep.Lib.LastMatch
import LibFep.Lib.Runs
import LibFep.Server.Handlers
import LibFep.Term.ChildOutput
import LibFep.Term.Sent

/-!
# LibFep — the status text after the screen is cleared

`find_match_end`, `remove_padding` and the pty branch of `main_loop` in `fep/fep.c`: where the child's
output holds a sequence that clears the screen, the status text is shown again behind it.

* **`removePadding_eq_self`** — `remove_padding` removes nothing. `main_loop` does not use what it
  returns either: it searches for the terminfo strings with their padding.
* **`matchEnd_eq_none_iff`**, **`matchEnd_eq_some`** — the branch finds the last end of a string in the
  read.
* **`repainted_read`** — where the status text is shown in a read.
* **`repainted_step_iff`**, **`repaintedAlways_iff`** — the reads, and the runs, after which it has been
  shown behind every sequence that clears the screen.
-/

namespace LibFep

open Lib

variable {loc : Locale}

/-! ## The terminfo strings -/

/-- The terminfo strings `clear_screen` and `clr_eos`, without the NUL at their end. -/
structure ClearStrings where
  clearScreen : List UInt8
  clrEos : List UInt8

/-- The length of the padding `$<n>` at the start of a string, 0 if there is none. The number `n` has at
most one decimal point; `*` and `/` may follow it. -/
def paddingLength : List UInt8 → Nat
  | 0x24 :: 0x3C :: rest =>
    let whole := rest.takeWhile isDigit
    let decimals :=
      match rest.dropWhile isDigit with
      | 0x2E :: digits => 0x2E :: digits.takeWhile isDigit
      | _ => []
    let number := whole ++ decimals
    let flags := (rest.drop number.length).takeWhile fun b => b = 0x2A || b = 0x2F
    let len := number.length + flags.length
    if number ≠ [] ∧ rest[len]? = some 0x3E then len + 3 else 0
  | _ => 0

/-- The string from behind the next `skip` bytes on, without its paddings. -/
def dropPadding : Nat → List UInt8 → List UInt8
  | _, [] => []
  | skip + 1, _ :: rest => dropPadding skip rest
  | 0, b :: rest =>
    match paddingLength (b :: rest) with
    | 0 => b :: dropPadding 0 rest
    | len + 1 => dropPadding len rest

/-- What a program emits for a terminfo string: `tputs` removes the padding. -/
def withoutPadding (str : List UInt8) : List UInt8 := dropPadding 0 str

/-- The place of the first match. -/
def memmem (haystack needle : List UInt8) : Option Nat :=
  (List.range (haystack.length + 1)).find? fun i => needle.isPrefixOf (haystack.drop i)

def removePadding (str : List UInt8) : List UInt8 :=
  match memmem str [0x24, 0x3C] with
  | none => str
  | some start =>
    -- the digits are looked for from the `$` on, not from behind the `<`
    let p := start + ((str.drop start).takeWhile isDigit).length
    if str[p]? ≠ some 0x3E then str else str.take start ++ str.drop (p + 1)

/-- At the place of a match stands the `$<`. -/
theorem drop_of_memmem {str : List UInt8} {start : Nat} (h : memmem str [0x24, 0x3C] = some start) :
    ∃ rest, str.drop start = 0x24 :: 0x3C :: rest := by
  have hprefix := List.find?_some h
  obtain ⟨rest, hrest⟩ := List.isPrefixOf_iff_prefix.mp hprefix
  exact ⟨rest, hrest.symm⟩

/-- **The padding stays**: at the place of a match stands a `$`, neither a digit nor a `>`. -/
theorem removePadding_eq_self (str : List UInt8) : removePadding str = str := by
  unfold removePadding
  cases hmatch : memmem str [0x24, 0x3C] with
  | none => rfl
  | some start =>
    obtain ⟨rest, hdrop⟩ := drop_of_memmem hmatch
    have hget : str[start]? = some 0x24 := by
      have := congrArg (·[0]?) hdrop
      simpa [List.getElem?_drop] using this
    have hdigits : (str.drop start).takeWhile isDigit = [] := by
      rw [hdrop]
      rfl
    dsimp only
    rw [hdigits, List.length_nil, Nat.add_zero, hget, if_pos (by decide)]

/-! ## The branch of `main_loop` -/

/-- The end of the last match. The needle is a C string: the first byte of an empty one is its NUL. -/
def findMatchEnd (haystack needle : List UInt8) : Option Nat :=
  (lastMatch haystack needle (needle.headD 0) haystack.length).map (· + needle.length)

/-- The later of two ends. `NULL` is below every pointer. -/
def laterEnd : Option Nat → Option Nat → Option Nat
  | none, str2 => str2
  | some str1, none => some str1
  | some str1, some str2 => if str1 < str2 then some str2 else some str1

def matchEnd (strings : ClearStrings) (buf : List UInt8) : Option Nat :=
  laterEnd (findMatchEnd buf strings.clearScreen) (findMatchEnd buf strings.clrEos)

/-- The calls of the branch. -/
inductive PtyCall where
  | stringFromPty (str : List UInt8) (strLen : Nat)
  | statusText

def ptyCalls (strings : ClearStrings) (buf : List UInt8) : List PtyCall :=
  match matchEnd strings buf with
  | some str1 =>
    let str1Len := buf.length - str1
    [.stringFromPty buf (buf.length - str1Len), .statusText,
      .stringFromPty (buf.drop str1) str1Len]
  | none => [.stringFromPty buf buf.length]

/-- The server, and what the terminal has got of the child's output. -/
structure PtyRun (loc : Locale) where
  fep : Fep loc
  /-- The bytes of the child that have been written to the terminal. -/
  forwarded : List UInt8
  /-- How many of them had been written when the status text was last shown. -/
  repainted : Nat
  repainted_le : repainted ≤ forwarded.length

def ptyRunStart (fep : Fep loc) : PtyRun loc := ⟨fep, [], 0, Nat.zero_le _⟩

/-- The status text has just been shown. -/
def PtyRun.repaint (s : PtyRun loc) (fep : Fep loc) : PtyRun loc :=
  ⟨fep, s.forwarded, s.forwarded.length, Nat.le_refl _⟩

def PtyRun.forward (s : PtyRun loc) (fep : Fep loc) (bytes : List UInt8) : PtyRun loc :=
  ⟨fep, s.forwarded ++ bytes, s.repainted, by
    rw [List.length_append]
    exact Nat.le_trans s.repainted_le (Nat.le_add_right _ _)⟩

def ptyCallStep (p : Platform) (s : PtyRun loc) : PtyCall → Except Fault (PtyRun loc)
  | .stringFromPty str strLen => do
    let fep ← outputStringFromPty p s.fep str strLen
    return s.forward fep (str.take strLen)
  | .statusText => do
    let fep ← outputStatusText s.fep s.fep.statusText s.fep.statusTextAttr
    return s.repaint fep

/-- What a read from the pty returns. The loop ends at a read that returns no bytes. -/
structure PtyRead (p : Platform) where
  bytes : List UInt8
  ne_nil : bytes ≠ []
  length_lt : bytes.length < p.bufsiz

/-- What `main_loop` shows on the terminal: the child's output, and overlays for other reasons. -/
inductive ScreenEvent (p : Platform) where
  | ptyReadable (read : PtyRead p)
  | cursorText (text : List UInt8) (attr : FepAttribute)
  | statusText (text : List UInt8) (attr : FepAttribute)
  | winch (reported : Winsize)

def screenStep (p : Platform) (strings : ClearStrings) (s : PtyRun loc) :
    ScreenEvent p → Except Fault (PtyRun loc)
  | .ptyReadable read => (ptyCalls strings read.bytes).foldlM (ptyCallStep p) s
  | .cursorText text attr => do
    let fep ← outputCursorText s.fep text attr
    return { s with fep := fep }
  | .statusText text attr => do
    let fep ← outputStatusText s.fep text attr
    return s.repaint fep
  | .winch reported => do
    let fep ← handleWinchSignal s.fep reported
    return s.repaint fep

/-! ## The matches -/

/-- A string is found `e` bytes after the start of a read: it ends there, and is not cut off by the start
or the end of the read. -/
def FoundAt (needle buf : List UInt8) (e : Nat) : Prop :=
  ∃ i < buf.length, StartsAt buf needle (needle.headD 0) i ∧ e = i + needle.length

theorem foundAt_iff_of_ne_nil {needle : List UInt8} (hne : needle ≠ []) {buf : List UInt8} {e : Nat} :
    FoundAt needle buf e ↔ e ≤ buf.length ∧ needle <:+ buf.take e := by
  obtain ⟨c, rest, rfl⟩ := List.exists_cons_of_ne_nil hne
  constructor
  · rintro ⟨i, hi, hstart, rfl⟩
    obtain ⟨behind, hbehind⟩ := hstart.prefixed
    have hlen := congrArg List.length hbehind
    rw [List.length_append, List.length_drop] at hlen
    refine ⟨by omega, buf.take i, ?_⟩
    rw [List.take_add, ← hbehind, List.take_left]
  · rintro ⟨he, front, hfront⟩
    have hlen : front.length + (c :: rest).length = e := by
      rw [← List.length_append, hfront, List.length_take_of_le he]
    have hdrop : buf.drop front.length = (c :: rest) ++ buf.drop e := by
      have hbuf : buf = front ++ ((c :: rest) ++ buf.drop e) := by
        rw [← List.append_assoc, hfront, List.take_append_drop]
      exact (congrArg (·.drop front.length) hbuf).trans List.drop_left
    refine ⟨front.length, ?_, startsAt_iff_of_cons.mpr ⟨buf.drop e, hdrop.symm⟩, hlen.symm⟩
    rw [List.length_cons] at hlen
    omega

/-- `find_match_end` finds nothing exactly if the string is not there. -/
theorem findMatchEnd_eq_none_iff {buf needle : List UInt8} :
    findMatchEnd buf needle = none ↔ ∀ e, ¬ FoundAt needle buf e := by
  rw [findMatchEnd, Option.map_eq_none_iff, lastMatch_eq_none_iff]
  constructor
  · rintro h e ⟨i, hi, hstart, -⟩
    exact h i hi hstart
  · intro h i hi hstart
    exact h (i + needle.length) ⟨i, hi, hstart, rfl⟩

/-- It finds the last end. -/
theorem findMatchEnd_eq_some {buf needle : List UInt8} {e : Nat}
    (h : findMatchEnd buf needle = some e) :
    FoundAt needle buf e ∧ ∀ e', FoundAt needle buf e' → e' ≤ e := by
  obtain ⟨i, hmatch, rfl⟩ := Option.map_eq_some_iff.mp h
  obtain ⟨hi, hstart, hlast⟩ := lastMatch_eq_some_iff.mp hmatch
  refine ⟨⟨i, hi, hstart, rfl⟩, ?_⟩
  rintro e' ⟨j, hj, hstart', rfl⟩
  have hji : ¬ i < j := fun hij => hlast j hj hij hstart'
  omega

/-- One of the two strings is found. -/
def ClearStrings.FoundAt (strings : ClearStrings) (buf : List UInt8) (e : Nat) : Prop :=
  LibFep.FoundAt strings.clearScreen buf e ∨ LibFep.FoundAt strings.clrEos buf e

theorem matchEnd_eq_none_iff {strings : ClearStrings} {buf : List UInt8} :
    matchEnd strings buf = none ↔ ∀ e, ¬ strings.FoundAt buf e := by
  have hlater (str1 str2 : Option Nat) :
      laterEnd str1 str2 = none ↔ str1 = none ∧ str2 = none := by
    cases str1 <;> cases str2 <;> simp [laterEnd]
    split <;> simp
  rw [matchEnd, hlater, findMatchEnd_eq_none_iff, findMatchEnd_eq_none_iff, ← forall_and]
  exact forall_congr' fun e => not_or.symm

/-- **The branch finds the last end** of the two strings. -/
theorem matchEnd_eq_some {strings : ClearStrings} {buf : List UInt8} {e : Nat}
    (h : matchEnd strings buf = some e) :
    strings.FoundAt buf e ∧ ∀ e', strings.FoundAt buf e' → e' ≤ e := by
  unfold matchEnd at h
  cases h1 : findMatchEnd buf strings.clearScreen with
  | none =>
    rw [h1] at h
    obtain ⟨hfound, hlast⟩ := findMatchEnd_eq_some (show findMatchEnd buf strings.clrEos = _ from h)
    refine ⟨Or.inr hfound, fun e' he' => he'.elim (fun hclear => ?_) (hlast e')⟩
    exact absurd hclear (findMatchEnd_eq_none_iff.mp h1 e')
  | some str1 =>
    obtain ⟨hfound1, hlast1⟩ := findMatchEnd_eq_some h1
    cases h2 : findMatchEnd buf strings.clrEos with
    | none =>
      rw [h1, h2] at h
      obtain rfl := Option.some.inj h
      refine ⟨Or.inl hfound1, fun e' he' => he'.elim (hlast1 e') fun heos => ?_⟩
      exact absurd heos (findMatchEnd_eq_none_iff.mp h2 e')
    | some str2 =>
      obtain ⟨hfound2, hlast2⟩ := findMatchEnd_eq_some h2
      rw [h1, h2, laterEnd] at h
      split at h
      · next hlt =>
        obtain rfl := Option.some.inj h
        exact ⟨Or.inr hfound2, fun e' he' =>
          he'.elim (fun hclear => (hlast1 e' hclear).trans hlt.le) (hlast2 e')⟩
      · next hle =>
        obtain rfl := Option.some.inj h
        exact ⟨Or.inl hfound1, fun e' he' =>
          he'.elim (hlast1 e') fun heos => (hlast2 e' heos).trans (Nat.le_of_not_lt hle)⟩

theorem le_length_of_foundAt {needle buf : List UInt8} {e : Nat} (h : FoundAt needle buf e) :
    e ≤ buf.length := by
  by_cases hne : needle = []
  · obtain ⟨i, hi, -, rfl⟩ := h
    rw [hne]
    exact hi.le
  · exact ((foundAt_iff_of_ne_nil hne).mp h).1

theorem le_length_of_matchEnd {strings : ClearStrings} {buf : List UInt8} {e : Nat}
    (h : matchEnd strings buf = some e) : e ≤ buf.length :=
  (matchEnd_eq_some h).1.elim le_length_of_foundAt le_length_of_foundAt

/-! ## One read -/

/-- What a call sends: the bytes as one piece, before the cursor text; or the status line. -/
theorem ptyCallStep_sent {p : Platform} {s t : PtyRun loc} :
    (∀ str strLen, 0 < strLen → strLen ≤ str.length →
      ptyCallStep p s (.stringFromPty str strLen) = .ok t →
        ∃ mid, ChunkSent s.fep (str.take strLen) mid ∧ restoreCursorText mid = .ok t.fep) ∧
    (ptyCallStep p s .statusText = .ok t →
      StatusSent s.fep s.fep.statusText s.fep.statusTextAttr t.fep) := by
  constructor
  · intro str strLen hpos hlen h
    obtain ⟨fep', hok, ht⟩ := bind_eq_ok.mp h
    rw [← Except.ok.inj ht]
    exact outputStringFromPty_mid hpos hlen hok
  · intro h
    obtain ⟨fep', hok, ht⟩ := bind_eq_ok.mp h
    rw [← Except.ok.inj ht]
    exact outputStatusText_sent hok

theorem ptyCallStep_stringFromPty {p : Platform} {s t : PtyRun loc} {str : List UInt8} {strLen : Nat}
    (h : ptyCallStep p s (.stringFromPty str strLen) = .ok t) :
    t.forwarded = s.forwarded ++ str.take strLen ∧ t.repainted = s.repainted := by
  obtain ⟨fep', -, ht⟩ := bind_eq_ok.mp h
  rw [← Except.ok.inj ht]
  exact ⟨rfl, rfl⟩

theorem ptyCallStep_statusText {p : Platform} {s t : PtyRun loc}
    (h : ptyCallStep p s .statusText = .ok t) :
    t.forwarded = s.forwarded ∧ t.repainted = s.forwarded.length := by
  obtain ⟨fep', -, ht⟩ := bind_eq_ok.mp h
  rw [← Except.ok.inj ht]
  exact ⟨rfl, rfl⟩

/-- **Where a read shows the status text**: at the last end, or not at all. All its bytes are written. -/
theorem repainted_read {p : Platform} {strings : ClearStrings} {s t : PtyRun loc}
    {buf : List UInt8} (h : (ptyCalls strings buf).foldlM (ptyCallStep p) s = .ok t) :
    t.forwarded = s.forwarded ++ buf ∧
      t.repainted = ((matchEnd strings buf).map (s.forwarded.length + ·)).getD s.repainted := by
  unfold ptyCalls at h
  cases hend : matchEnd strings buf with
  | none =>
    rw [hend] at h
    obtain ⟨t', hcall, ht⟩ := bind_eq_ok.mp h
    obtain ⟨hforwarded, hrepainted⟩ := ptyCallStep_stringFromPty hcall
    rw [← Except.ok.inj ht, hforwarded, List.take_length]
    exact ⟨rfl, hrepainted⟩
  | some e =>
    have hle : e ≤ buf.length := le_length_of_matchEnd hend
    rw [hend] at h
    dsimp only at h
    rw [Nat.sub_sub_self hle] at h
    obtain ⟨s₁, hcall₁, hrest⟩ := bind_eq_ok.mp h
    obtain ⟨s₂, hcall₂, hrest⟩ := bind_eq_ok.mp hrest
    obtain ⟨s₃, hcall₃, ht⟩ := bind_eq_ok.mp hrest
    obtain ⟨hforwarded₁, -⟩ := ptyCallStep_stringFromPty hcall₁
    obtain ⟨hforwarded₂, hrepainted₂⟩ := ptyCallStep_statusText hcall₂
    obtain ⟨hforwarded₃, hrepainted₃⟩ := ptyCallStep_stringFromPty hcall₃
    rw [← Except.ok.inj ht]
    constructor
    · rw [hforwarded₃, hforwarded₂, hforwarded₁, ← List.length_drop, List.take_length,
        List.append_assoc, List.take_append_drop]
    · rw [hrepainted₃, hrepainted₂, hforwarded₁, List.length_append, List.length_take_of_le hle]
      rfl

/-! ## Runs -/

/-- A sequence that clears the screen, or the rest of it, as programs emit it. -/
def ClearStrings.Emitted (strings : ClearStrings) (seq : List UInt8) : Prop :=
  seq ≠ [] ∧ (seq = withoutPadding strings.clearScreen ∨ seq = withoutPadding strings.clrEos)

/-- Such a sequence is complete after `e` bytes of the stream. -/
def ClearedAt (strings : ClearStrings) (stream : List UInt8) (e : Nat) : Prop :=
  e ≤ stream.length ∧ ∃ seq, strings.Emitted seq ∧ seq <:+ stream.take e

/-- The status text has been shown at or after the end of each sequence of the stream so far. -/
def Repainted (strings : ClearStrings) (s : PtyRun loc) : Prop :=
  ∀ e, ClearedAt strings s.forwarded e → e ≤ s.repainted

/-- Each sequence that the read completes ends no later than a terminfo string, with its padding, that
lies in the read as a whole. -/
def Covers (strings : ClearStrings) (before buf : List UInt8) : Prop :=
  ∀ e, before.length < e → ClearedAt strings (before ++ buf) e →
    ∃ e', strings.FoundAt buf e' ∧ e ≤ before.length + e'

/-- The sequences that are complete before a read do not depend on it. -/
theorem clearedAt_append_iff {strings : ClearStrings} {before buf : List UInt8} {e : Nat}
    (he : e ≤ before.length) :
    ClearedAt strings (before ++ buf) e ↔ ClearedAt strings before e := by
  have hle : e ≤ (before ++ buf).length := by
    rw [List.length_append]
    omega
  rw [ClearedAt, ClearedAt, List.take_append_of_le_length he]
  exact and_congr_left' (iff_of_true hle he)

/-- **A read keeps the property exactly if it covers** the sequences that it completes. -/
theorem repainted_step_iff {p : Platform} {strings : ClearStrings} {s t : PtyRun loc}
    {read : PtyRead p} (hs : Repainted strings s)
    (h : screenStep p strings s (.ptyReadable read) = .ok t) :
    Repainted strings t ↔ Covers strings s.forwarded read.bytes := by
  obtain ⟨hforwarded, hrepainted⟩ := repainted_read h
  have hle := s.repainted_le
  unfold Repainted
  rw [hforwarded, hrepainted]
  cases hend : matchEnd strings read.bytes with
  | none =>
    have hnone := matchEnd_eq_none_iff.mp hend
    dsimp only [Option.map_none, Option.getD_none]
    constructor
    · intro ht e hbehind hcleared
      have := ht e hcleared
      omega
    · intro hcovers e hcleared
      rcases Nat.lt_or_ge s.forwarded.length e with hbehind | hbefore
      · obtain ⟨e', hfound, -⟩ := hcovers e hbehind hcleared
        exact absurd hfound (hnone e')
      · exact hs e ((clearedAt_append_iff hbefore).mp hcleared)
  | some last =>
    obtain ⟨hfound, hlast⟩ := matchEnd_eq_some hend
    dsimp only [Option.map_some, Option.getD_some]
    constructor
    · intro ht e hbehind hcleared
      exact ⟨last, hfound, ht e hcleared⟩
    · intro hcovers e hcleared
      rcases Nat.lt_or_ge s.forwarded.length e with hbehind | hbefore
      · obtain ⟨e', hfound', he⟩ := hcovers e hbehind hcleared
        have := hlast e' hfound'
        omega
      · omega

/-- Overlays that show the status text keep it, too. -/
theorem repainted_repaint (strings : ClearStrings) (s : PtyRun loc) (fep : Fep loc) :
    Repainted strings (s.repaint fep) := fun _ hcleared => hcleared.1

/-- A read is good if it covers the sequences that it completes. -/
def CoveredEvent {p : Platform} (strings : ClearStrings) (s : PtyRun loc) : ScreenEvent p → Prop
  | .ptyReadable read => Covers strings s.forwarded read.bytes
  | .cursorText _ _ | .statusText _ _ | .winch _ => True

theorem repainted_event_iff {p : Platform} {strings : ClearStrings} (s : PtyRun loc)
    (event : ScreenEvent p) (t : PtyRun loc) (hs : Repainted strings s)
    (h : screenStep p strings s event = .ok t) :
    Repainted strings t ↔ CoveredEvent strings s event := by
  cases event with
  | ptyReadable read => exact repainted_step_iff hs h
  | cursorText text attr =>
    obtain ⟨fep, -, ht⟩ := bind_eq_ok.mp h
    rw [← Except.ok.inj ht]
    exact iff_of_true hs trivial
  | statusText text attr =>
    obtain ⟨fep, -, ht⟩ := bind_eq_ok.mp h
    rw [← Except.ok.inj ht]
    exact iff_of_true (repainted_repaint strings s fep) trivial
  | winch reported =>
    obtain ⟨fep, -, ht⟩ := bind_eq_ok.mp h
    rw [← Except.ok.inj ht]
    exact iff_of_true (repainted_repaint strings s fep) trivial

theorem repainted_start (strings : ClearStrings) (fep : Fep loc) :
    Repainted strings (ptyRunStart fep) := fun _ hcleared => hcleared.1

/-- A read covers its sequences if the terminfo strings have no padding and each sequence that it
completes starts in it. -/
theorem covers_of_whole {strings : ClearStrings} {before buf : List UInt8}
    (hclear : withoutPadding strings.clearScreen = strings.clearScreen)
    (heos : withoutPadding strings.clrEos = strings.clrEos)
    (hwhole : ∀ e seq, before.length < e → strings.Emitted seq → seq <:+ (before ++ buf).take e →
      before.length + seq.length ≤ e) :
    Covers strings before buf := by
  rintro e hbehind ⟨hlen, seq, hseq, hsuffix⟩
  have hstart := hwhole e seq hbehind hseq hsuffix
  obtain ⟨n, rfl⟩ := Nat.exists_eq_add_of_lt hbehind
  rw [List.length_append] at hlen
  -- the sequence ends the part of the stream that lies in the read
  have hpart : seq <:+ buf.take (n + 1) := by
    rw [Nat.add_assoc, List.take_length_add_append] at hsuffix
    refine List.suffix_of_suffix_length_le hsuffix (List.suffix_append _ _) ?_
    rw [List.length_take_of_le (by omega)]
    omega
  refine ⟨n + 1, ?_, by omega⟩
  rcases hseq with ⟨hne, rfl | rfl⟩
  · rw [hclear] at hpart hne
    exact Or.inl ((foundAt_iff_of_ne_nil hne).mpr ⟨by omega, hpart⟩)
  · rw [heos] at hpart hne
    exact Or.inr ((foundAt_iff_of_ne_nil hne).mpr ⟨by omega, hpart⟩)

/-- **The runs in which the status text is always shown behind the last sequence** that clears the
screen are those in which each read covers the sequences that it completes. -/
theorem repaintedAlways_iff (p : Platform) (strings : ClearStrings) (fep : Fep loc)
    (events : List (ScreenEvent p)) :
    (∀ t ∈ okStates (screenStep p strings) (ptyRunStart fep) events, Repainted strings t) ↔
      ∀ x ∈ okSteps (screenStep p strings) (ptyRunStart fep) events,
        ∀ read, x.2.1 = .ptyReadable read → Covers strings x.1.forwarded read.bytes := by
  rw [forall_okStates_iff repainted_event_iff (repainted_start strings fep)]
  refine forall₂_congr fun x _ => ?_
  cases hevent : x.2.1 with
  | ptyReadable read =>
    constructor
    · intro hcovers read' hread
      rw [← (ScreenEvent.ptyReadable.inj hread)]
      exact hcovers
    · intro hcovers
      exact hcovers read rfl
  | cursorText text attr => exact iff_of_true trivial fun read hread => absurd hread (by simp)
  | statusText text attr => exact iff_of_true trivial fun read hread => absurd hread (by simp)
  | winch reported => exact iff_of_true trivial fun read hread => absurd hread (by simp)

/-- The strings of a terminal that needs time to clear its screen. -/
def paddedStrings : ClearStrings where
  -- ESC [ H ESC [ J $ < 5 0 >
  clearScreen := [0x1B, 0x5B, 0x48, 0x1B, 0x5B, 0x4A, 0x24, 0x3C, 0x35, 0x30, 0x3E]
  -- ESC [ J $ < 5 0 >
  clrEos := [0x1B, 0x5B, 0x4A, 0x24, 0x3C, 0x35, 0x30, 0x3E]

/-- One read of what a program emits to clear the rest of this screen. -/
def clearRead : PtyRead .x86_64 where
  bytes := [0x1B, 0x5B, 0x4A]
  ne_nil := by simp
  length_lt := by decide

theorem not_repaintedAlways_padded :
    ¬ ∀ t ∈ okStates (screenStep .x86_64 paddedStrings) (ptyRunStart (Fep.new .c))
      [.ptyReadable clearRead], Repainted paddedStrings t := by
  intro h
  have hnone : matchEnd paddedStrings clearRead.bytes = none := by decide +kernel
  obtain ⟨fep', hok⟩ := exists_childStep_chunk .x86_64 (Fep.new .c) clearRead.bytes
    (by decide +kernel)
  have hstep : screenStep .x86_64 paddedStrings (ptyRunStart (Fep.new .c))
      (.ptyReadable clearRead) = .ok ((ptyRunStart (Fep.new .c)).forward fep' clearRead.bytes) := by
    rw [screenStep, ptyCalls, hnone]
    exact bind_eq_ok.mpr ⟨_, bind_eq_ok.mpr ⟨fep', hok, rfl⟩, rfl⟩
  have hrepainted := h ((ptyRunStart (Fep.new .c)).forward fep' clearRead.bytes) (by
    rw [okStates, hstep]
    exact List.mem_cons_of_mem _ (mem_okStates_self _ _ _))
  have hcleared : ClearedAt paddedStrings clearRead.bytes 3 :=
    ⟨by decide, clearRead.bytes, ⟨clearRead.ne_nil, Or.inr (by decide +kernel)⟩, by decide⟩
  have hle : 3 ≤ 0 := hrepainted 3 hcleared
  exact absurd hle (by decide)

end LibFep
