import LibFep.Lib.ControlSequence

/-!
# Control sequences byte by byte

A device that gets one byte at a time: it prints the bytes outside control sequences, and acts on each
sequence at its final byte. Between two bytes it keeps the part of the sequence it has got.

* **`feed_text`** — bytes without ESC are printed in turn.
* **`feed_sequence`** — a sequence takes one action, whatever came before it.
* **`numbers_append`**, **`numbers_of_digits`** — the parameters as numbers, one by one.
-/

namespace LibFep.Lib

/-! ## Parameters -/

def isDecimal (b : UInt8) : Bool := 0x30 ≤ b && b ≤ 0x39

/-- The numbers in a parameter string, between semicolons, when `value` has been read so far of the first
one. A number without digits is 0. -/
def numbersFrom (value : Nat) : List UInt8 → List Nat
  | [] => [value]
  | b :: rest =>
    if b = 0x3B then value :: numbersFrom 0 rest
    else numbersFrom (10 * value + (b.toNat - 48)) rest

def numbers (params : List UInt8) : List Nat := numbersFrom 0 params

/-- The value of a string of digits. -/
def decimalValue (digits : List UInt8) (value : Nat) : Nat :=
  digits.foldl (fun value b => 10 * value + (b.toNat - 48)) value

theorem ne_semicolon_of_isDecimal {b : UInt8} (h : isDecimal b = true) : b ≠ 0x3B := by
  rintro rfl
  exact absurd h (by decide)

theorem numbersFrom_digits {digits : List UInt8} (h : ∀ b ∈ digits, isDecimal b = true) (value : Nat)
    (rest : List UInt8) :
    numbersFrom value (digits ++ rest) = numbersFrom (decimalValue digits value) rest := by
  induction digits generalizing value with
  | nil => rfl
  | cons b digits ih =>
    obtain ⟨hb, hdigits⟩ := List.forall_mem_cons.mp h
    rw [List.cons_append, numbersFrom, if_neg (ne_semicolon_of_isDecimal hb), ih hdigits]
    rfl

/-- The first number ends at the first semicolon. -/
theorem numbers_append {digits : List UInt8} (h : ∀ b ∈ digits, isDecimal b = true)
    (rest : List UInt8) :
    numbers (digits ++ 0x3B :: rest) = decimalValue digits 0 :: numbers rest := by
  rw [numbers, numbersFrom_digits h, numbersFrom, if_pos rfl, numbers]

theorem numbers_of_digits {digits : List UInt8} (h : ∀ b ∈ digits, isDecimal b = true) :
    numbers digits = [decimalValue digits 0] := by
  have := numbersFrom_digits h 0 []
  rwa [List.append_nil] at this

/-! ## The device -/

/-- What has been read of a sequence. -/
inductive ParserState where
  | ground
  | escaped
  | sequence (params intermediates : List UInt8)
  deriving DecidableEq

structure Device (σ : Type*) where
  print : σ → UInt8 → σ
  control : σ → List UInt8 → List UInt8 → UInt8 → σ

variable {σ : Type*}

/-- A byte. An ESC starts a new sequence in any state. -/
def Device.feed (d : Device σ) (s : ParserState × σ) (b : UInt8) : ParserState × σ :=
  if b = escape then (.escaped, s.2)
  else
    match s.1 with
    | .ground => (.ground, d.print s.2 b)
    | .escaped => if b = 0x5B then (.sequence [] [], s.2) else (.ground, s.2)
    | .sequence params intermediates =>
      if isParam b = true ∧ intermediates = [] then (.sequence (params ++ [b]) [], s.2)
      else if isIntermediate b = true then (.sequence params (intermediates ++ [b]), s.2)
      else if isFinal b = true then (.ground, d.control s.2 params intermediates b)
      else (.ground, s.2)

theorem Device.feed_text (d : Device σ) {bytes : List UInt8} (h : escape ∉ bytes) (s : σ) :
    bytes.foldl d.feed (.ground, s) = (.ground, bytes.foldl d.print s) := by
  induction bytes generalizing s with
  | nil => rfl
  | cons b bytes ih =>
    obtain ⟨hb, hbytes⟩ := List.ne_and_not_mem_of_not_mem_cons h
    have hfeed : d.feed (.ground, s) b = (.ground, d.print s b) := if_neg hb.symm
    rw [List.foldl_cons, List.foldl_cons, hfeed, ih hbytes]

theorem ne_escape_of_not_stops {b : UInt8} (h : ¬ Stops b) : b ≠ escape := by
  rintro rfl
  exact h stops_escape

theorem Device.feed_params (d : Device σ) {bytes : List UInt8} (h : ∀ b ∈ bytes, isParam b = true)
    (params : List UInt8) (s : σ) :
    bytes.foldl d.feed (.sequence params [], s) = (.sequence (params ++ bytes) [], s) := by
  induction bytes generalizing params with
  | nil => rw [List.append_nil, List.foldl_nil]
  | cons b bytes ih =>
    obtain ⟨hb, hbytes⟩ := List.forall_mem_cons.mp h
    have hne : b ≠ escape := ne_escape_of_not_stops fun hstops => by simpa [hb] using hstops.1
    have hfeed : d.feed (.sequence params [], s) b = (.sequence (params ++ [b]) [], s) := by
      rw [Device.feed, if_neg hne]
      exact if_pos ⟨hb, rfl⟩
    rw [List.foldl_cons, hfeed, ih hbytes, List.append_assoc, List.singleton_append]

theorem Device.feed_intermediates (d : Device σ) {bytes : List UInt8}
    (h : ∀ b ∈ bytes, isIntermediate b = true) (params intermediates : List UInt8) (s : σ) :
    bytes.foldl d.feed (.sequence params intermediates, s) =
      (.sequence params (intermediates ++ bytes), s) := by
  induction bytes generalizing intermediates with
  | nil => rw [List.append_nil, List.foldl_nil]
  | cons b bytes ih =>
    obtain ⟨hb, hbytes⟩ := List.forall_mem_cons.mp h
    have hne : b ≠ escape := ne_escape_of_not_stops fun hstops => by simpa [hb] using hstops.2.1
    have hfeed : d.feed (.sequence params intermediates, s) b =
        (.sequence params (intermediates ++ [b]), s) := by
      rw [Device.feed, if_neg hne]
      have hparam : ¬ (isParam b = true ∧ intermediates = []) := by
        simp [not_isParam_of_isIntermediate hb]
      exact (if_neg hparam).trans (if_pos hb)
    rw [List.foldl_cons, hfeed, ih hbytes, List.append_assoc, List.singleton_append]

/-- **A sequence takes one action**, with its own parameters and intermediates. -/
theorem Device.feed_sequence (d : Device σ) (seq : ControlSequence) (s : ParserState × σ) :
    seq.bytes.foldl d.feed s =
      (.ground, d.control s.2 seq.params seq.intermediates seq.final) := by
  have hstart : d.feed (d.feed s escape) 0x5B = (.sequence [] [], s.2) := by
    rw [show d.feed s escape = (.escaped, s.2) from if_pos rfl]
    rfl
  have hfinal : d.feed (.sequence seq.params seq.intermediates, s.2) seq.final =
      (.ground, d.control s.2 seq.params seq.intermediates seq.final) := by
    have hne : seq.final ≠ escape :=
      ne_escape_of_not_stops fun hstops => by simpa [seq.final_ok] using hstops.2.2
    rw [Device.feed, if_neg hne]
    have hparam : ¬ (isParam seq.final = true ∧ seq.intermediates = []) := by
      simp [not_isParam_of_isFinal seq.final_ok]
    have hinter : ¬ isIntermediate seq.final = true := by
      simp [not_isIntermediate_of_isFinal seq.final_ok]
    exact (if_neg hparam).trans ((if_neg hinter).trans (if_pos seq.final_ok))
  rw [ControlSequence.bytes, List.foldl_cons, List.foldl_cons, hstart, List.foldl_append,
    List.foldl_append, d.feed_params seq.params_ok, List.nil_append,
    d.feed_intermediates seq.intermediates_ok, List.nil_append, List.foldl_cons, hfinal,
    List.foldl_nil]

end LibFep.Lib
