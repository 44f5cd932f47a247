import Mathlib.Data.List.Nodup

/-!
# Sweeps over an array that shrinks

A loop goes over the elements of an array by their index. It serves those that are ready, and removes some
of these from the array on the way. What stands behind a removed element moves up, so that the loop, which
goes on with the next index, passes over the element that comes next.

* **`sweep_moves_up`** — an element that is ready and passed over has fewer elements before it afterwards.
* **`served_within`** — so it is passed over at most as often as elements stand before it.
-/

namespace LibFep.Lib

variable {α : Type*}

section

variable (isReady removes : α → Bool)

/-- The elements served and those that stay. `passed` says that the first one is passed over. -/
def sweep : Bool → List α → List α × List α
  | _, [] => ([], [])
  | true, c :: cs => ((sweep false cs).1, c :: (sweep false cs).2)
  | false, c :: cs =>
    if isReady c then
      (c :: (sweep (removes c) cs).1,
        if removes c then (sweep (removes c) cs).2 else c :: (sweep (removes c) cs).2)
    else ((sweep false cs).1, c :: (sweep false cs).2)

end

variable {isReady removes : α → Bool}

theorem sweep_served_sublist (passed : Bool) (l : List α) :
    ((sweep isReady removes passed l).1).Sublist (l.filter isReady) := by
  induction l generalizing passed with
  | nil => exact List.Sublist.refl _
  | cons c cs ih =>
    cases passed with
    | true => exact (ih false).trans ((List.sublist_cons_self c cs).filter isReady)
    | false =>
      rw [sweep]
      split
      · next hready =>
        rw [List.filter_cons_of_pos hready]
        exact (ih (removes c)).cons_cons c
      · next hready =>
        rw [List.filter_cons_of_neg hready]
        exact ih false

theorem sweep_congr {isReady' : α → Bool} (passed : Bool) {l : List α}
    (h : ∀ c ∈ l, isReady c = isReady' c) :
    sweep isReady removes passed l = sweep isReady' removes passed l := by
  induction l generalizing passed with
  | nil => rfl
  | cons c cs ih =>
    obtain ⟨hc, hcs⟩ := List.forall_mem_cons.mp h
    cases passed with
    | true => rw [sweep, sweep, ih false hcs]
    | false => rw [sweep, sweep, hc, ih (removes c) hcs, ih false hcs]

theorem sweep_of_none_ready (passed : Bool) {l : List α} (h : ∀ c ∈ l, isReady c = false) :
    sweep isReady removes passed l = ([], l) := by
  induction l generalizing passed with
  | nil => rfl
  | cons c cs ih =>
    obtain ⟨hc, hcs⟩ := List.forall_mem_cons.mp h
    cases passed with
    | true => rw [sweep, ih false hcs]
    | false => rw [sweep, hc, if_neg Bool.false_ne_true, ih false hcs]

/-- Elements behind the others that are not ready make no difference. -/
theorem sweep_append (passed : Bool) (l : List α) {more : List α}
    (hmore : ∀ d ∈ more, isReady d = false) :
    sweep isReady removes passed (l ++ more) =
      ((sweep isReady removes passed l).1, (sweep isReady removes passed l).2 ++ more) := by
  induction l generalizing passed with
  | nil => exact sweep_of_none_ready passed hmore
  | cons c cs ih =>
    cases passed with
    | true =>
      rw [List.cons_append, sweep, ih]
      rfl
    | false =>
      rw [List.cons_append, sweep, sweep]
      split
      · rw [ih]
        dsimp only
        split
        · rfl
        · rfl
      · rw [ih]
        rfl

/-- **An element that is not served stays**, and if it is ready it moves up: it can only have been passed
over because one before it has been removed. -/
theorem sweep_moves_up (passed : Bool) (before : List α) (c : α) (behind : List α) :
    c ∈ (sweep isReady removes passed (before ++ c :: behind)).1 ∨
      ∃ before' behind', (sweep isReady removes passed (before ++ c :: behind)).2 =
          before' ++ c :: behind' ∧
        before'.length + (if isReady c && !passed then 1 else 0) ≤ before.length := by
  induction before generalizing passed with
  | nil =>
    cases passed with
    | true =>
      right
      exact ⟨[], _, rfl, by simp⟩
    | false =>
      rw [List.nil_append, sweep]
      split
      · left
        exact List.mem_cons_self
      · next hready =>
        right
        exact ⟨[], _, rfl, by simp [hready]⟩
  | cons b before ih =>
    cases passed with
    | true =>
      refine (ih false).imp id ?_
      rintro ⟨before', behind', hstays, hle⟩
      refine ⟨b :: before', behind', by rw [List.cons_append, sweep, hstays]; rfl, ?_⟩
      simp only [List.length_cons, Bool.not_true, Bool.and_false, Bool.false_eq_true, if_false]
      omega
    | false =>
      rw [List.cons_append, sweep]
      split
      · refine (ih (removes b)).imp (List.mem_cons_of_mem b) ?_
        rintro ⟨before', behind', hstays, hle⟩
        rw [hstays]
        cases hremoves : removes b with
        | true =>
          refine ⟨before', behind', rfl, ?_⟩
          simp only [List.length_cons]
          split <;> omega
        | false =>
          rw [hremoves] at hle
          refine ⟨b :: before', behind', rfl, ?_⟩
          simp only [List.length_cons]
          omega
      · refine (ih false).imp id ?_
        rintro ⟨before', behind', hstays, hle⟩
        refine ⟨b :: before', behind', by rw [hstays]; rfl, ?_⟩
        simp only [List.length_cons]
        omega

/-! ## One sweep after the other -/

/-- Who is ready in a round, who is removed when served, and who arrives. -/
structure SweepRound (α : Type*) where
  isReady : α → Bool
  removes : α → Bool
  arrived : List α

/-- The elements after a round. -/
def SweepRound.stays (round : SweepRound α) (l : List α) : List α :=
  (sweep round.isReady round.removes false l).2 ++ round.arrived

/-- The elements served in each round. -/
def sweeps : List α → List (SweepRound α) → List (List α)
  | _, [] => []
  | l, round :: rounds =>
    (sweep round.isReady round.removes false l).1 :: sweeps (round.stays l) rounds

/-- **Nobody waits forever.** An element that is ready in more rounds than there are elements before it is
served in one of the rounds. -/
theorem served_within (before : List α) (c : α) (behind : List α) (rounds : List (SweepRound α))
    (hrounds : before.length < (rounds.filter (·.isReady c)).length) :
    ∃ served ∈ sweeps (before ++ c :: behind) rounds, c ∈ served := by
  induction rounds generalizing before behind with
  | nil => exact absurd hrounds (Nat.not_lt_zero _)
  | cons round rounds ih =>
    rw [sweeps]
    rcases @sweep_moves_up _ round.isReady round.removes false before c behind with
      hserved | ⟨before', behind', hstays, hle⟩
    · exact ⟨_, List.mem_cons_self, hserved⟩
    · have hrest : round.stays (before ++ c :: behind) =
          before' ++ c :: (behind' ++ round.arrived) := by
        rw [SweepRound.stays, hstays, List.append_assoc, List.cons_append]
      rw [hrest]
      have hrounds' : before'.length < (rounds.filter (·.isReady c)).length := by
        rw [Bool.not_false, Bool.and_true] at hle
        rw [List.filter_cons] at hrounds
        split at hrounds
        · next hready =>
          rw [List.length_cons] at hrounds
          rw [if_pos hready] at hle
          omega
        · omega
      obtain ⟨served, hmem, hc⟩ := ih before' (behind' ++ round.arrived) hrounds'
      exact ⟨served, List.mem_cons_of_mem _ hmem, hc⟩

end LibFep.Lib
