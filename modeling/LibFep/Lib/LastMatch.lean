import Mathlib.Data.List.Infix

/-!
# The last match of a string

A needle is searched for backwards: from each place that holds its first element to the one before,
until the needle is found there.

* **`memrchr_eq_some_iff`** — the last place that holds an element.
* **`lastMatch_eq_none_iff`**, **`lastMatch_eq_some_iff`** — the search finds the last place at which the
  needle starts.
-/

namespace LibFep.Lib

variable {α : Type*}

/-- At `i` stands `first`, and the needle starts there. For a needle that is not empty, `first` is its
first element. -/
structure StartsAt (hay needle : List α) (first : α) (i : Nat) : Prop where
  getElem : hay[i]? = some first
  prefixed : needle <+: hay.drop i

theorem startsAt_iff_of_cons {hay needle : List α} {c : α} {i : Nat} :
    StartsAt hay (c :: needle) c i ↔ c :: needle <+: hay.drop i := by
  refine ⟨fun h => h.prefixed, fun h => ⟨?_, h⟩⟩
  obtain ⟨rest, hrest⟩ := h
  have hget : (hay.drop i)[0]? = some c := by rw [← hrest]; rfl
  rwa [List.getElem?_drop, Nat.add_zero] at hget

/-! ## The last place of an element -/

variable [DecidableEq α]

/-- The last of the first `n` places that holds `c`. -/
def memrchr (hay : List α) (c : α) : Nat → Option Nat
  | 0 => none
  | n + 1 => if hay[n]? = some c then some n else memrchr hay c n

theorem memrchr_eq_none_iff {hay : List α} {c : α} {n : Nat} :
    memrchr hay c n = none ↔ ∀ i < n, hay[i]? ≠ some c := by
  induction n with
  | zero => simp [memrchr]
  | succ n ih =>
    rw [memrchr, Nat.forall_lt_succ_right, ← ih]
    split
    · next hc => simp [hc]
    · next hc => simp [hc]

theorem memrchr_eq_some_iff {hay : List α} {c : α} {n i : Nat} :
    memrchr hay c n = some i ↔ i < n ∧ hay[i]? = some c ∧ ∀ j < n, i < j → hay[j]? ≠ some c := by
  induction n with
  | zero => simp [memrchr]
  | succ n ih =>
    rw [memrchr]
    split
    · next hc =>
      constructor
      · intro h
        obtain rfl := Option.some.inj h
        exact ⟨Nat.lt_succ_self n, hc, fun j hj hnj => absurd hj (by omega)⟩
      · rintro ⟨hi, -, hlast⟩
        -- a place before `n` would not be the last one
        rcases Nat.lt_or_eq_of_le (Nat.le_of_lt_succ hi) with hlt | rfl
        · exact absurd hc (hlast n (Nat.lt_succ_self n) hlt)
        · rfl
    · next hc =>
      rw [ih]
      constructor
      · rintro ⟨hi, hci, hlast⟩
        refine ⟨Nat.lt_succ_of_lt hi, hci, fun j hj hij => ?_⟩
        rcases Nat.lt_or_eq_of_le (Nat.le_of_lt_succ hj) with hlt | rfl
        · exact hlast j hlt hij
        · exact hc
      · rintro ⟨hi, hci, hlast⟩
        have hne : i ≠ n := by
          rintro rfl
          exact hc hci
        exact ⟨by omega, hci, fun j hj hij => hlast j (Nat.lt_succ_of_lt hj) hij⟩

theorem lt_of_memrchr {hay : List α} {c : α} {n i : Nat} (h : memrchr hay c n = some i) : i < n :=
  (memrchr_eq_some_iff.mp h).1

/-! ## The last place of a needle -/

/-- The last of the first `n` places at which the needle starts. -/
def lastMatch (hay needle : List α) (first : α) (n : Nat) : Option Nat :=
  match _ : memrchr hay first n with
  | none => none
  | some i => if needle <+: hay.drop i then some i else lastMatch hay needle first i
  termination_by n
  decreasing_by exact lt_of_memrchr ‹_›

/-- The search ends at the last place, or at none. Induction along the search, which leaves out only
places that do not hold the first element. -/
theorem lastMatch_spec (hay needle : List α) (first : α) (n : Nat) :
    (lastMatch hay needle first n = none ∧ ∀ i < n, ¬ StartsAt hay needle first i) ∨
    ∃ i < n, lastMatch hay needle first n = some i ∧ StartsAt hay needle first i ∧
      ∀ j < n, i < j → ¬ StartsAt hay needle first j := by
  induction n using Nat.strong_induction_on with
  | _ n ih =>
    rw [lastMatch]
    split
    · next hnone =>
      exact Or.inl ⟨rfl, fun i hi hstart => memrchr_eq_none_iff.mp hnone i hi hstart.getElem⟩
    · next i hsome =>
      obtain ⟨hi, hfirst, hlast⟩ := memrchr_eq_some_iff.mp hsome
      have hbehind : ∀ j < n, i < j → ¬ StartsAt hay needle first j :=
        fun j hj hij hstart => hlast j hj hij hstart.getElem
      split
      · next hprefix => exact Or.inr ⟨i, hi, rfl, ⟨hfirst, hprefix⟩, hbehind⟩
      · next hprefix =>
        have hhere : ¬ StartsAt hay needle first i := fun hstart => hprefix hstart.prefixed
        rcases ih i hi with ⟨hnone, hbefore⟩ | ⟨k, hk, hfound, hstart, hbetween⟩
        · refine Or.inl ⟨hnone, fun j hj => ?_⟩
          rcases Nat.lt_trichotomy j i with hlt | rfl | hgt
          · exact hbefore j hlt
          · exact hhere
          · exact hbehind j hj hgt
        · refine Or.inr ⟨k, by omega, hfound, hstart, fun j hj hkj => ?_⟩
          rcases Nat.lt_trichotomy j i with hlt | rfl | hgt
          · exact hbetween j hlt hkj
          · exact hhere
          · exact hbehind j hj hgt

/-- The search finds nothing exactly if the needle does not start anywhere. -/
theorem lastMatch_eq_none_iff {hay needle : List α} {first : α} {n : Nat} :
    lastMatch hay needle first n = none ↔ ∀ i < n, ¬ StartsAt hay needle first i := by
  rcases lastMatch_spec hay needle first n with ⟨hnone, hbefore⟩ | ⟨i, hi, hsome, hstart, -⟩
  · exact iff_of_true hnone hbefore
  · rw [hsome]
    exact iff_of_false (by simp) fun h => h i hi hstart

/-- **The search finds the last place** at which the needle starts. -/
theorem lastMatch_eq_some_iff {hay needle : List α} {first : α} {n i : Nat} :
    lastMatch hay needle first n = some i ↔
      i < n ∧ StartsAt hay needle first i ∧ ∀ j < n, i < j → ¬ StartsAt hay needle first j := by
  rcases lastMatch_spec hay needle first n with ⟨hnone, hbefore⟩ | ⟨k, hk, hsome, hstart, hlast⟩
  · rw [hnone]
    exact iff_of_false (by simp) fun h => hbefore i h.1 h.2.1
  · rw [hsome, Option.some.injEq]
    constructor
    · rintro rfl
      exact ⟨hk, hstart, hlast⟩
    · rintro ⟨hi, hstart', hlast'⟩
      rcases Nat.lt_trichotomy k i with hlt | rfl | hgt
      · exact absurd hstart' (hlast i hi hlt)
      · rfl
      · exact absurd hstart (hlast' k hk hgt)

end LibFep.Lib
