import Mathlib.Data.List.Induction

/-!
# Partial updates of a record

A record is a function from fields to values, and an update gives a value to some of the fields. In a
sequence of updates the last write to a field wins, so that the fields of the result are read off the
sequence.

* **`foldl_update`** — a field holds the last value written to it.
* **`lastWrite_append`** — of two sequences, the second one decides where it writes.
-/

namespace LibFep.Lib

variable {F V : Type*}

/-- An update of some of the fields. -/
def update (s : F → V) (w : F → Option V) : F → V := fun f => (w f).getD (s f)

/-- The last value that a sequence of updates writes to a field. -/
def lastWrite (ws : List (F → Option V)) (f : F) : Option V := (ws.filterMap (· f)).getLast?

theorem lastWrite_append (ws vs : List (F → Option V)) (f : F) :
    lastWrite (ws ++ vs) f = (lastWrite vs f).or (lastWrite ws f) := by
  rw [lastWrite, List.filterMap_append, List.getLast?_append]
  rfl

/-- **The last write to a field wins.** Induction on the updates, with the last one split off. -/
theorem foldl_update (ws : List (F → Option V)) (s : F → V) (f : F) :
    ws.foldl update s f = (lastWrite ws f).getD (s f) := by
  induction ws using List.reverseRecOn with
  | nil => rfl
  | append_singleton ws w ih =>
    rw [List.foldl_append, List.foldl_cons, List.foldl_nil, update, ih, lastWrite_append]
    cases hw : w f with
    | none => simp [lastWrite, hw]
    | some v => simp [lastWrite, hw]

theorem lastWrite_eq_none_iff {ws : List (F → Option V)} {f : F} :
    lastWrite ws f = none ↔ ∀ w ∈ ws, w f = none := by
  rw [lastWrite, List.getLast?_eq_none_iff, List.filterMap_eq_nil_iff]

end LibFep.Lib
