import Mathlib.Algebra.BigOperators.Group.List.Basic
import Mathlib.Algebra.Ring.Int.Defs

/-!
# The part of a list that fits a budget

A list whose elements have weights, and the part of it that is taken as long as the running total stays
within a budget. A weight may be negative, so that the total can come down again.

* **`prefix_fit_iff`** — the part taken is the longest one of which every beginning fits.
* **`prefix_fit_iff_of_nonneg`** — without negative weights, the longest one that fits.
* **`exists_crossing`** — where the weight of a list crosses a bound.
-/

namespace LibFep.Lib

variable {α : Type} (w : α → Int)

/-- The weight of a list. -/
def weight (l : List α) : Int := (l.map w).sum

@[simp] theorem weight_nil : weight w [] = 0 := rfl

@[simp] theorem weight_cons (a : α) (l : List α) : weight w (a :: l) = w a + weight w l := by
  simp [weight]

@[simp] theorem weight_append (l l' : List α) : weight w (l ++ l') = weight w l + weight w l' := by
  simp [weight]

/-- The elements taken, from a total on, up to the first one that does not fit. -/
def fit (budget : Int) : Int → List α → List α
  | _, [] => []
  | total, a :: l => if budget < total + w a then [] else a :: fit budget (total + w a) l

theorem fit_isPrefix (budget total : Int) (l : List α) : fit w budget total l <+: l := by
  induction l generalizing total with
  | nil => exact List.prefix_refl []
  | cons a l ih =>
    rw [fit]
    split
    · exact List.nil_prefix
    · exact (List.prefix_cons_inj a).mpr (ih (total + w a))

/-- **What is taken** is the longest part of the list of which every beginning fits. -/
theorem prefix_fit_iff {budget total : Int} {l p : List α} (h : p <+: l) :
    p <+: fit w budget total l ↔ ∀ q, q <+: p → q ≠ [] → total + weight w q ≤ budget := by
  induction l generalizing total p with
  | nil =>
    rw [List.prefix_nil.mp h]
    refine iff_of_true (List.prefix_refl []) ?_
    intro q hq hne
    exact absurd (List.prefix_nil.mp hq) hne
  | cons a l ih =>
    cases p with
    | nil =>
      refine iff_of_true List.nil_prefix ?_
      intro q hq hne
      exact absurd (List.prefix_nil.mp hq) hne
    | cons b p =>
      obtain ⟨rfl, hp⟩ := List.cons_prefix_cons.mp h
      rw [fit]
      by_cases hover : budget < total + w b
      · rw [if_pos hover]
        refine iff_of_false (by simp) ?_
        intro hall
        have hfirst := hall [b] ((List.prefix_cons_inj b).mpr List.nil_prefix) (by simp)
        rw [weight_cons, weight_nil] at hfirst
        omega
      · rw [if_neg hover, List.prefix_cons_inj, ih hp]
        constructor
        · intro hall q hq hne
          cases q with
          | nil => exact absurd rfl hne
          | cons c q =>
            obtain ⟨rfl, htail⟩ := List.cons_prefix_cons.mp hq
            rw [weight_cons]
            by_cases hnil : q = []
            · subst hnil
              rw [weight_nil]
              omega
            · have := hall q htail hnil
              omega
        · intro hall q hq hne
          have := hall (b :: q) ((List.prefix_cons_inj b).mpr hq) (by simp)
          rw [weight_cons] at this
          omega

theorem weight_nonneg {l : List α} (h : ∀ a ∈ l, 0 ≤ w a) : 0 ≤ weight w l := by
  induction l with
  | nil => exact Int.le_refl 0
  | cons a l ih =>
    obtain ⟨ha, hl⟩ := List.forall_mem_cons.mp h
    have := ih hl
    rw [weight_cons]
    omega

theorem weight_le_of_isPrefix {p l : List α} (h : ∀ a ∈ l, 0 ≤ w a) (hp : p <+: l) :
    weight w p ≤ weight w l := by
  obtain ⟨t, rfl⟩ := hp
  have := weight_nonneg w fun a ha => h a (List.mem_append_right p ha)
  rw [weight_append]
  omega

/-- Without negative weights only the whole part has to fit. -/
theorem prefix_fit_iff_of_nonneg {budget : Int} (hbudget : 0 ≤ budget) {l p : List α}
    (hl : ∀ a ∈ l, 0 ≤ w a) (h : p <+: l) : p <+: fit w budget 0 l ↔ weight w p ≤ budget := by
  have hp : ∀ a ∈ p, 0 ≤ w a := fun a ha => hl a (h.subset ha)
  rw [prefix_fit_iff w h]
  constructor
  · intro hall
    by_cases hnil : p = []
    · rwa [hnil, weight_nil]
    · have := hall p (List.prefix_refl p) hnil
      omega
  · intro hfits q hq _
    have := weight_le_of_isPrefix w hp hq
    omega

/-- The element at which the weight crosses a bound. -/
theorem exists_crossing {budget : Int} {l : List α} (hbudget : 0 ≤ budget)
    (h : budget < weight w l) :
    ∃ pre a post, l = pre ++ a :: post ∧ weight w pre ≤ budget ∧ budget < weight w pre + w a := by
  induction l generalizing budget with
  | nil => exact absurd h (by rw [weight_nil]; omega)
  | cons a l ih =>
    rw [weight_cons] at h
    by_cases ha : budget < w a
    · refine ⟨[], a, l, rfl, hbudget, ?_⟩
      rw [weight_nil]
      omega
    · obtain ⟨pre, b, post, rfl, hpre, hb⟩ :=
        ih (show 0 ≤ budget - w a by omega) (by omega)
      refine ⟨a :: pre, b, post, rfl, ?_, ?_⟩
      · rw [weight_cons]
        omega
      · rw [weight_cons]
        omega

end LibFep.Lib
