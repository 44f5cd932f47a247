import LibFep.Lib.ControlSequence
import LibFep.Platform

/-!
# LibFep — splitting and converting strings

`_fep_strsplit_full` and `_fep_strjoinv` of `libfep/string.c` and the library functions `strtoul` and
`xasprintf ("%d")` as the code uses them. A string is the list of its bytes before the NUL.

* **`strsplitFull`** — the split, for any search function that gets on. The loop that counts the
  delimiters and the one that copies the tokens find the same ones, so only the second is here.
* **`strsplit_append`**, **`strsplit_of_not_mem`** — a split at a single byte, token by token.
* **`strtoul_passes_iff`** — which tokens of parameter bytes pass the check on `errno` and
  `*endptr`.
-/

namespace LibFep

open Lib

/-! ## Splitting -/

/-- A search for a delimiter: the place `q` it is found at and the place `next` behind it. It gets on in
a string that is not empty. -/
structure Search where
  find : List UInt8 → Option (Nat × Nat)
  progress : ∀ {s : List UInt8} {q next : Nat}, find s = some (q, next) → s ≠ [] → 0 < next

/-- `strstr`: the first place where the needle starts. -/
def strstr (needle : List UInt8) : List UInt8 → Option Nat
  | [] => if needle = [] then some 0 else none
  | b :: rest => if needle <+: b :: rest then some 0 else (strstr needle rest).map (· + 1)

/-- `search_strstr`, for a delimiter that is not empty. -/
def searchStrstr (delimiter : List UInt8) (h : delimiter ≠ []) : Search where
  find s := (strstr delimiter s).map fun q => (q, q + delimiter.length)
  progress := by
    intro s q next hfind _
    obtain ⟨q', -, heq⟩ := Option.map_eq_some_iff.mp hfind
    have hpos : 0 < delimiter.length := List.length_pos_iff.mpr h
    rw [← (Prod.mk.inj heq).2]
    omega

/-- The loop that copies the tokens: those before a delimiter, and what is left. It stops at a delimiter
found at the end of the string. -/
def strsplitLoop (search : Search) (p : List UInt8) : List (List UInt8) × List UInt8 :=
  match _ : search.find p with
  | some (q, next) =>
    if _ : q < p.length then
      let (tokens, rest) := strsplitLoop search (p.drop next)
      (p.take q :: tokens, rest)
    else ([], p)
  | none => ([], p)
  termination_by p.length
  decreasing_by
    have hne : p ≠ [] := List.ne_nil_of_length_pos (Nat.zero_lt_of_lt ‹q < p.length›)
    have hnext := search.progress ‹_› hne
    rw [List.length_drop]
    omega

/-- `_fep_strsplit_full`. What is left is a token unless it is empty. -/
def strsplitFull (search : Search) (str : List UInt8) : List (List UInt8) :=
  let (tokens, rest) := strsplitLoop search str
  if rest = [] then tokens else tokens ++ [rest]

/-- Nothing is found, and the string is what is left. -/
theorem strsplitLoop_of_find_none {search : Search} {s : List UInt8} (h : search.find s = none) :
    strsplitLoop search s = ([], s) := by
  rw [strsplitLoop]
  split
  · next heq => exact absurd (h.symm.trans heq) (by simp)
  · rfl

/-- The loop stops at a delimiter that is found at the end. -/
theorem strsplitLoop_of_find_end {search : Search} {s : List UInt8} {q next : Nat}
    (h : search.find s = some (q, next)) (hq : ¬ q < s.length) :
    strsplitLoop search s = ([], s) := by
  rw [strsplitLoop]
  split
  · next q' next' heq =>
    obtain ⟨rfl, rfl⟩ := Prod.mk.inj (Option.some.inj (h.symm.trans heq))
    rw [dif_neg hq]
  · rfl

/-- A delimiter is found, with a token in front of it. -/
theorem strsplitLoop_of_find_some {search : Search} {s : List UInt8} {q next : Nat}
    (h : search.find s = some (q, next)) (hq : q < s.length) :
    strsplitLoop search s = (s.take q :: (strsplitLoop search (s.drop next)).1,
      (strsplitLoop search (s.drop next)).2) := by
  rw [strsplitLoop]
  split
  · next q' next' heq =>
    obtain ⟨rfl, rfl⟩ := Prod.mk.inj (Option.some.inj (h.symm.trans heq))
    rw [dif_pos hq]
  · next heq => exact absurd (h.symm.trans heq) (by simp)

/-- Tokens that the loop finds in front of `t` are tokens in front of those of `t`. -/
theorem strsplitFull_of_loop {search : Search} {s t : List UInt8} (strv : List (List UInt8))
    (h : strsplitLoop search s =
      (strv ++ (strsplitLoop search t).1, (strsplitLoop search t).2)) :
    strsplitFull search s = strv ++ strsplitFull search t := by
  unfold strsplitFull
  rw [h]
  dsimp only
  split
  · rfl
  · exact List.append_assoc _ _ _

/-- A string in which the loop finds nothing is one token, or none if it is empty. -/
theorem strsplitFull_of_find_none {search : Search} {s : List UInt8} (h : search.find s = none) :
    strsplitFull search s = if s = [] then [] else [s] := by
  unfold strsplitFull
  rw [strsplitLoop_of_find_none h]
  rfl

def strsplit (str delimiter : List UInt8) (h : delimiter ≠ []) : List (List UInt8) :=
  strsplitFull (searchStrstr delimiter h) str

/-- `";"`. -/
theorem semicolon_ne_nil : ([0x3B] : List UInt8) ≠ [] := by simp

def strjoinv (delimiter : List UInt8) : List (List UInt8) → List UInt8
  | [] => []
  | [str] => str
  | str :: strv => str ++ (delimiter ++ strjoinv delimiter strv)

theorem mem_of_mem_strjoinv {delimiter : List UInt8} {strv : List (List UInt8)} {b : UInt8}
    (h : b ∈ strjoinv delimiter strv) : b ∈ delimiter ∨ ∃ str ∈ strv, b ∈ str := by
  fun_induction strjoinv delimiter strv with
  | case1 => exact absurd h (by simp)
  | case2 str => exact Or.inr ⟨str, by simp, h⟩
  | case3 str strv hne ih =>
    rcases List.mem_append.mp h with h | h
    · exact Or.inr ⟨str, by simp, h⟩
    · rcases List.mem_append.mp h with h | h
      · exact Or.inl h
      · rcases ih h with hd | ⟨str', hstr', hb⟩
        · exact Or.inl hd
        · exact Or.inr ⟨str', List.mem_cons_of_mem _ hstr', hb⟩

/-! ## A split at one byte -/

theorem strstr_append {d : UInt8} {a : List UInt8} (ha : d ∉ a) (t : List UInt8) :
    strstr [d] (a ++ d :: t) = some a.length := by
  induction a with
  | nil => simp [strstr]
  | cons b a ih =>
    obtain ⟨hb, ha⟩ := List.ne_and_not_mem_of_not_mem_cons ha
    have hpre : ¬ [d] <+: b :: (a ++ d :: t) := by
      rintro ⟨t', ht'⟩
      exact hb (List.cons.inj ht').1
    rw [List.cons_append, strstr, if_neg hpre, ih ha]
    rfl

theorem strstr_of_not_mem {d : UInt8} {a : List UInt8} (ha : d ∉ a) : strstr [d] a = none := by
  induction a with
  | nil => simp [strstr]
  | cons b a ih =>
    obtain ⟨hb, ha⟩ := List.ne_and_not_mem_of_not_mem_cons ha
    have hpre : ¬ [d] <+: b :: a := by
      rintro ⟨t', ht'⟩
      exact hb (List.cons.inj ht').1
    rw [strstr, if_neg hpre, ih ha]
    rfl

/-- The token before a delimiter. -/
theorem strsplit_append {d : UInt8} {a : List UInt8} (ha : d ∉ a) (t : List UInt8) :
    strsplit (a ++ d :: t) [d] (by simp) = a :: strsplit t [d] (by simp) := by
  have hfind : (searchStrstr [d] (by simp)).find (a ++ d :: t) = some (a.length, a.length + 1) := by
    simp [searchStrstr, strstr_append ha]
  have hloop := strsplitLoop_of_find_some hfind (by simp)
  rw [List.take_left, ← List.drop_drop, List.drop_left] at hloop
  exact strsplitFull_of_loop [a] hloop

/-- A string without the delimiter is one token, or none if it is empty. -/
theorem strsplit_of_not_mem {d : UInt8} {a : List UInt8} (ha : d ∉ a) :
    strsplit a [d] (by simp) = if a = [] then [] else [a] := by
  have hfind : (searchStrstr [d] (by simp)).find a = none := by
    simp [searchStrstr, strstr_of_not_mem ha]
  exact strsplitFull_of_find_none hfind

/-- A string either has no delimiter or one after a part without it. -/
theorem eq_append_cons_or_not_mem (d : UInt8) (s : List UInt8) :
    d ∉ s ∨ ∃ a t, s = a ++ d :: t ∧ d ∉ a := by
  by_cases h : d ∈ s
  · obtain ⟨a, t, rfl, ha⟩ := List.eq_append_cons_of_mem h
    exact Or.inr ⟨a, t, rfl, ha⟩
  · exact Or.inl h

/-- The bytes of the tokens are bytes of the string other than the delimiter. -/
theorem mem_of_mem_strsplit {d : UInt8} {s token : List UInt8}
    (h : token ∈ strsplit s [d] (by simp)) : ∀ b ∈ token, b ∈ s ∧ b ≠ d := by
  induction hlen : s.length using Nat.strong_induction_on generalizing s with
  | _ n ih =>
    rcases eq_append_cons_or_not_mem d s with hs | ⟨a, t, rfl, ha⟩
    · rw [strsplit_of_not_mem hs] at h
      split at h
      · exact absurd h (by simp)
      · rw [List.mem_singleton.mp h]
        exact fun b hb => ⟨hb, fun heq => hs (heq ▸ hb)⟩
    · rw [strsplit_append ha] at h
      rcases List.mem_cons.mp h with rfl | h
      · exact fun b hb => ⟨List.mem_append_left _ hb, fun heq => ha (heq ▸ hb)⟩
      · intro b hb
        have hlt : t.length < n := by
          rw [← hlen]
          simp
          omega
        obtain ⟨hmem, hne⟩ := ih t.length hlt h rfl b hb
        exact ⟨List.mem_append_right _ (List.mem_cons_of_mem _ hmem), hne⟩

/-- Tokens that were joined are split again. -/
theorem strsplit_strjoinv {d : UInt8} {tokens : List (List UInt8)}
    (h : ∀ token ∈ tokens, token ≠ [] ∧ d ∉ token) :
    strsplit (strjoinv [d] tokens) [d] (by simp) = tokens := by
  induction tokens with
  | nil => exact strsplit_of_not_mem (by simp [strjoinv])
  | cons token tokens ih =>
    obtain ⟨hne, hmem⟩ := h token List.mem_cons_self
    cases tokens with
    | nil => rw [strjoinv, strsplit_of_not_mem hmem, if_neg hne]
    | cons token' tokens =>
      have ih := ih fun u hu => h u (List.mem_cons_of_mem _ hu)
      show strsplit (token ++ d :: strjoinv [d] (token' :: tokens)) [d] _ = _
      rw [strsplit_append hmem, ih]

/-! ## Numbers -/

def isSpace (b : UInt8) : Bool := b == 0x20 || (0x09 ≤ b && b ≤ 0x0D)

def isDigit (b : UInt8) : Bool := 0x30 ≤ b && b ≤ 0x39

/-- The value of a string of decimal digits. -/
def digitsValue (digits : List UInt8) : Nat :=
  digits.foldl (fun value b => 10 * value + (b.toNat - 48)) 0

/-- What `strtoul` leaves: its value, whether `errno` is still 0, and the string at `endptr`. -/
structure Strtoul where
  value : Nat
  inRange : Bool
  rest : List UInt8
  deriving DecidableEq, Repr

/-- `strtoul (str, &endptr, 10)`. Without digits it returns 0, leaves `errno` alone and sets `endptr` to
the start of the string. -/
def Platform.strtoul (p : Platform) (str : List UInt8) : Strtoul :=
  let s := str.dropWhile isSpace
  let negative := s.head? == some 0x2D
  let s := if negative || s.head? == some 0x2B then s.tail else s
  let digits := s.takeWhile isDigit
  let rest := s.dropWhile isDigit
  let value := digitsValue digits
  if digits = [] then ⟨0, true, str⟩
  else if p.ulongMax < value then ⟨p.ulongMax, false, rest⟩
  else ⟨if negative then (p.ulongMax + 1 - value) % (p.ulongMax + 1) else value, true, rest⟩

/-- `errno == 0 && *endptr == '\0'`. -/
def Strtoul.Passes (r : Strtoul) : Prop := r.inRange = true ∧ r.rest = []

instance (r : Strtoul) : Decidable r.Passes :=
  inferInstanceAs (Decidable (r.inRange = true ∧ r.rest = []))

/-- An `unsigned long` assigned to an `int`. -/
def Strtoul.toInt (r : Strtoul) : Int := (BitVec.ofNat 32 r.value).toInt

/-- `xasprintf ("%d", n)`. -/
def formatInt (n : Int) : List UInt8 := (toString n).toList.map fun c => UInt8.ofNat c.toNat

/-- A number that is not negative is formatted as the digits of its value. -/
theorem formatInt_natCast (n : Nat) :
    formatInt n = (Nat.toDigits 10 n).map fun c => UInt8.ofNat c.toNat := by
  show ((n.repr).toList.map fun c => UInt8.ofNat c.toNat) = _
  rw [Nat.toList_repr]

theorem toNat_digit {c : Char} (h : c.isDigit = true) :
    (UInt8.ofNat c.toNat).toNat = c.toNat ∧ 48 ≤ c.toNat ∧ c.toNat ≤ 57 := by
  obtain ⟨hlo, hhi⟩ : 48 ≤ c.toNat ∧ c.toNat ≤ 57 := by
    simpa [Char.isDigit, UInt32.le_iff_toNat_le] using h
  have hlt : c.toNat < UInt8.size := Nat.lt_of_le_of_lt hhi (by decide)
  exact ⟨UInt8.toNat_ofNat_of_lt' hlt, hlo, hhi⟩

theorem isDigit_of_mem_formatInt {n : Nat} {b : UInt8} (h : b ∈ formatInt n) :
    isDigit b = true := by
  rw [formatInt_natCast] at h
  obtain ⟨c, hc, rfl⟩ := List.mem_map.mp h
  obtain ⟨hval, hlo, hhi⟩ := toNat_digit (Nat.isDigit_of_mem_toDigits (by decide) (by decide) hc)
  simp only [isDigit, Bool.and_eq_true, decide_eq_true_eq, UInt8.le_iff_toNat_le, hval]
  exact ⟨hlo, hhi⟩

/-- The digits of a number have its value. -/
theorem digitsValue_formatInt (n : Nat) : digitsValue (formatInt n) = n := by
  have hfold (l : List Char) (h : ∀ c ∈ l, c.isDigit = true) (value : Nat) :
      (l.map fun c => UInt8.ofNat c.toNat).foldl (fun value b => 10 * value + (b.toNat - 48)) value =
        Nat.ofDigitChars 10 l value := by
    induction l generalizing value with
    | nil => rw [List.map_nil, List.foldl_nil, Nat.ofDigitChars_nil]
    | cons c l ih =>
      obtain ⟨hc, hl⟩ := List.forall_mem_cons.mp h
      rw [List.map_cons, List.foldl_cons, ih hl, (toNat_digit hc).1, Nat.ofDigitChars_cons]
      rfl
  rw [digitsValue, formatInt_natCast, hfold _ (fun c hc =>
    Nat.isDigit_of_mem_toDigits (by decide) (by decide) hc), Nat.ofDigitChars_ten_toDigits]

/-- A token that starts with neither a blank nor a sign. -/
theorem strtoul_of_head {p : Platform} {str : List UInt8}
    (h : ∀ b ∈ str.head?, isSpace b = false ∧ b ≠ 0x2D ∧ b ≠ 0x2B) :
    p.strtoul str =
      if str.takeWhile isDigit = [] then ⟨0, true, str⟩
      else if p.ulongMax < digitsValue (str.takeWhile isDigit) then
        ⟨p.ulongMax, false, str.dropWhile isDigit⟩
      else ⟨digitsValue (str.takeWhile isDigit), true, str.dropWhile isDigit⟩ := by
  have hspace : str.dropWhile isSpace = str := by
    cases str with
    | nil => rfl
    | cons b str => exact List.dropWhile_cons_of_neg (by simp [h b rfl])
  have hminus : (str.head? == some 0x2D) = false := by
    cases str with
    | nil => rfl
    | cons b str => simpa using (h b rfl).2.1
  have hplus : (str.head? == some 0x2B) = false := by
    cases str with
    | nil => rfl
    | cons b str => simpa using (h b rfl).2.2
  simp only [Platform.strtoul, hspace, hminus, hplus, Bool.or_self, Bool.false_eq_true, if_false]

/-- **A token passes exactly when it consists of digits and its value fits an `unsigned long`.** The
empty token passes too. -/
theorem strtoul_passes_iff {p : Platform} {str : List UInt8}
    (h : ∀ b ∈ str.head?, isSpace b = false ∧ b ≠ 0x2D ∧ b ≠ 0x2B) :
    (p.strtoul str).Passes ↔ (∀ b ∈ str, isDigit b = true) ∧ digitsValue str ≤ p.ulongMax := by
  rw [strtoul_of_head h]
  constructor
  · intro hpass
    split at hpass
    · have hnil : str = [] := hpass.2
      subst hnil
      simp [digitsValue]
    · split at hpass
      · exact absurd hpass.1 (by simp)
      · next hle =>
        have hall : ∀ b ∈ str, isDigit b = true := List.dropWhile_eq_nil_iff.mp hpass.2
        rw [List.takeWhile_eq_self_iff.mpr hall] at hle
        exact ⟨hall, by omega⟩
  · rintro ⟨hall, hle⟩
    have htake := List.takeWhile_eq_self_iff.mpr hall
    rw [htake]
    split
    · next hnil => exact ⟨rfl, hnil⟩
    · rw [if_neg (by omega)]
      exact ⟨rfl, List.dropWhile_eq_nil_iff.mpr hall⟩

/-- Parameter bytes are neither blanks nor signs. -/
theorem not_space_of_isParam {b : UInt8} (h : isParam b = true) :
    isSpace b = false ∧ b ≠ 0x2D ∧ b ≠ 0x2B := by
  simp only [isParam, Bool.and_eq_true, decide_eq_true_eq, UInt8.le_iff_toNat_le] at h
  have h48 : (0x30 : UInt8).toNat = 48 := rfl
  have h13 : (0x0D : UInt8).toNat = 13 := rfl
  have hne : ∀ c : UInt8, c.toNat < 48 → b ≠ c := by
    rintro c hc rfl
    omega
  refine ⟨?_, hne _ (by decide), hne _ (by decide)⟩
  simp only [isSpace, Bool.or_eq_false_iff, Bool.and_eq_false_iff, decide_eq_false_iff_not,
    UInt8.le_iff_toNat_le, beq_eq_false_iff_ne]
  exact ⟨hne _ (by decide), Or.inr (by omega)⟩

theorem isParam_of_isDigit {b : UInt8} (h : isDigit b = true) : isParam b = true := by
  simp only [isDigit, isParam, Bool.and_eq_true, decide_eq_true_eq, UInt8.le_iff_toNat_le] at h ⊢
  exact ⟨h.1, Nat.le_trans h.2 (by decide)⟩

/-- A string of digits passes if its value fits. -/
theorem passes_of_digits {p : Platform} {str : List UInt8} (hall : ∀ b ∈ str, isDigit b = true)
    (hle : digitsValue str ≤ p.ulongMax) : (p.strtoul str).Passes := by
  rw [strtoul_passes_iff]
  · exact ⟨hall, hle⟩
  · intro b hb
    exact not_space_of_isParam (isParam_of_isDigit (hall b (List.mem_of_mem_head? hb)))

/-- The value of a string of digits. -/
theorem value_strtoul {p : Platform} {str : List UInt8} (hall : ∀ b ∈ str, isDigit b = true)
    (hle : digitsValue str ≤ p.ulongMax) : (p.strtoul str).value = digitsValue str := by
  have hhead : ∀ b ∈ str.head?, isSpace b = false ∧ b ≠ 0x2D ∧ b ≠ 0x2B := fun b hb =>
    not_space_of_isParam (isParam_of_isDigit (hall b (List.mem_of_mem_head? hb)))
  rw [strtoul_of_head hhead, List.takeWhile_eq_self_iff.mpr hall]
  split
  · next hnil => rw [hnil]; rfl
  · rw [if_neg (by omega)]

/-! ## Parameters of a control sequence -/

/-- A parameter of a control sequence. -/
theorem passes_token_iff {p : Platform} {d : UInt8} {params token : List UInt8}
    (hparams : ∀ b ∈ params, isParam b = true) (h : token ∈ strsplit params [d] (by simp)) :
    (p.strtoul token).Passes ↔ (∀ b ∈ token, isDigit b = true) ∧ digitsValue token ≤ p.ulongMax := by
  apply strtoul_passes_iff
  intro b hb
  have hmem := mem_of_mem_strsplit h b (List.mem_of_mem_head? hb)
  exact not_space_of_isParam (hparams b hmem.1)

end LibFep
