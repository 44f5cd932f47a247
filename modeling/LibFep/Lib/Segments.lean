import Mathlib.Data.List.TakeWhile

/-!
# Segments of a list

The longest runs of elements with a property, in the order in which they stand in the list. What is in
between them is a gap.

* **`segments_append_gap`**, **`segments_append_segment`** — the segments of a list that is cut at a gap.
* **`gap_induction`** — induction along the gaps of a list.
-/

namespace LibFep.Lib

variable {α : Type*}

/-- The non-empty pieces in between the elements without the property. -/
def segments (p : α → Bool) (l : List α) : List (List α) :=
  (l.splitOnP fun b => !p b).filter fun piece => !piece.isEmpty

variable {p : α → Bool}

@[simp] theorem segments_nil : segments p [] = [] := rfl

theorem segments_append_cons (l t : List α) {b : α} (hb : p b = false) :
    segments p (l ++ b :: t) = segments p l ++ segments p t := by
  rw [segments, List.splitOnP_append_cons l t (by simpa using hb), List.filter_append]
  rfl

/-- A list that is one segment. -/
theorem segments_of_forall {l : List α} (hne : l ≠ []) (h : ∀ b ∈ l, p b = true) :
    segments p l = [l] := by
  rw [segments, List.splitOnP_eq_singleton fun b hb => by simp [h b hb]]
  simp [hne]

/-- A gap in front of a list. -/
theorem segments_gap_append {r : List α} (h : ∀ b ∈ r, p b = false) (t : List α) :
    segments p (r ++ t) = segments p t := by
  induction r with
  | nil => rfl
  | cons b r ih =>
    obtain ⟨hb, hr⟩ := List.forall_mem_cons.mp h
    have hcons := segments_append_cons [] (r ++ t) hb
    rw [List.cons_append, ← ih hr]
    exact hcons

theorem segments_of_forall_not {l : List α} (h : ∀ b ∈ l, p b = false) : segments p l = [] := by
  have hgap := segments_gap_append h []
  rwa [List.append_nil] at hgap

/-- A gap in between. -/
theorem segments_append_gap (a : List α) {r : List α} (hne : r ≠ []) (h : ∀ b ∈ r, p b = false)
    (t : List α) : segments p (a ++ (r ++ t)) = segments p a ++ segments p t := by
  obtain ⟨b, r, rfl⟩ := List.exists_cons_of_ne_nil hne
  obtain ⟨hb, hr⟩ := List.forall_mem_cons.mp h
  rw [List.cons_append, segments_append_cons a (r ++ t) hb, segments_gap_append hr]

/-- A segment in front of a gap or of the end. -/
theorem segments_append_segment {r t : List α} (hne : r ≠ []) (h : ∀ b ∈ r, p b = true)
    (ht : ∀ b ∈ t.head?, p b = false) : segments p (r ++ t) = r :: segments p t := by
  cases t with
  | nil => rw [List.append_nil, segments_of_forall hne h, segments_nil]
  | cons b t =>
    have hb : p b = false := ht b rfl
    have hcons := segments_append_cons [] t hb
    rw [segments_append_cons r t hb, segments_of_forall hne h]
    exact congrArg (r :: ·) hcons.symm

/-- A list is one segment, or it is cut around the first gap. -/
theorem exists_eq_append_gap (p : α → Bool) (l : List α) :
    (∀ b ∈ l, p b = true) ∨ ∃ a r t, l = a ++ (r ++ t) ∧ (∀ b ∈ a, p b = true) ∧ r ≠ [] ∧
      (∀ b ∈ r, p b = false) ∧ ∀ b ∈ t.head?, p b = true := by
  have hsplit : l.takeWhile p ++ l.dropWhile p = l := List.takeWhile_append_dropWhile
  cases hdrop : l.dropWhile p with
  | nil => exact Or.inl (List.dropWhile_eq_nil_iff.mp hdrop)
  | cons c rest =>
    have hc : p c = false := by
      have hhead := List.head?_dropWhile_not p l
      rw [hdrop] at hhead
      simpa using hhead
    refine Or.inr ⟨l.takeWhile p, c :: rest.takeWhile fun b => !p b, rest.dropWhile fun b => !p b,
      ?_, fun b hb => List.mem_takeWhile_imp hb, by simp, ?_, ?_⟩
    · rw [List.cons_append, List.takeWhile_append_dropWhile, ← hdrop, hsplit]
    · refine List.forall_mem_cons.mpr ⟨hc, ?_⟩
      intro b hb
      simpa using List.mem_takeWhile_imp hb
    · intro b hb
      have hhead := List.head?_dropWhile_not (fun b => !p b) rest
      rw [Option.mem_def.mp hb] at hhead
      simpa using hhead

/-- **Induction along the gaps**: a list is one segment, or what is behind its first gap is shorter. -/
@[elab_as_elim] theorem gap_induction (p : α → Bool) {motive : List α → Prop}
    (segment : ∀ l, (∀ b ∈ l, p b = true) → motive l)
    (gap : ∀ a r t, (∀ b ∈ a, p b = true) → r ≠ [] → (∀ b ∈ r, p b = false) →
      (∀ b ∈ t.head?, p b = true) → motive t → motive (a ++ (r ++ t))) (l : List α) : motive l := by
  induction hlen : l.length using Nat.strong_induction_on generalizing l with
  | _ n ih =>
    rcases exists_eq_append_gap p l with hall | ⟨a, r, t, rfl, ha, hne, hr, ht⟩
    · exact segment l hall
    · have hpos := List.length_pos_iff.mpr hne
      refine gap a r t ha hne hr ht (ih t.length ?_ t rfl)
      rw [← hlen, List.length_append, List.length_append]
      omega

end LibFep.Lib
