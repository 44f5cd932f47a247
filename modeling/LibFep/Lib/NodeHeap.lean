import Mathlib.Tactic.Common

/-!
# A heap of list nodes

Nodes with a `prev` and a `next` pointer at addresses that are never used twice, and what it means
that the nodes reached from a head pointer hold a list.

* **`Chain`** — following `next` from the head visits the given addresses and finds the given
  data.
* **`IsQueue`** — a chain whose head knows its tail: `prev` of the head is the last node, and null
  where the head is the last node itself.
* **`Chain.snoc`**, **`Chain.free`** — the two changes a queue makes: a node linked behind the last
  one, and the head freed.
-/

namespace LibFep.Lib

variable {α : Type*}

structure Node (α : Type*) where
  prev : Option Nat
  next : Option Nat
  data : α

/-- The cells by address, `none` for a node that has been freed. -/
structure NodeHeap (α : Type*) where
  cells : List (Option (Node α))

namespace NodeHeap

def empty : NodeHeap α := ⟨[]⟩

/-- The node at an address, `none` where there is no live node. -/
def load (h : NodeHeap α) (a : Nat) : Option (Node α) := h.cells[a]?.join

def alloc (h : NodeHeap α) (node : Node α) : NodeHeap α × Nat :=
  (⟨h.cells ++ [some node]⟩, h.cells.length)

def free (h : NodeHeap α) (a : Nat) : NodeHeap α := ⟨h.cells.set a none⟩

/-- A store through a pointer, `none` where there is no live node. -/
def update (h : NodeHeap α) (a : Nat) (f : Node α → Node α) : Option (NodeHeap α) :=
  (h.load a).map fun node => ⟨h.cells.set a (some (f node))⟩

def live (h : NodeHeap α) : Nat := h.cells.countP Option.isSome

theorem cells_of_load {h : NodeHeap α} {a : Nat} {node : Node α} (hload : h.load a = some node) :
    h.cells[a]? = some (some node) := by
  unfold load at hload
  cases hcell : h.cells[a]? with
  | none => simp [hcell] at hload
  | some cell => simpa [hcell] using hload

theorem lt_of_load {h : NodeHeap α} {a : Nat} {node : Node α} (hload : h.load a = some node) :
    a < h.cells.length :=
  (List.getElem?_eq_some_iff.mp (cells_of_load hload)).1

theorem load_alloc (h : NodeHeap α) (node : Node α) (c : Nat) :
    (h.alloc node).1.load c = if c = (h.alloc node).2 then some node else h.load c := by
  unfold alloc load
  rcases Nat.lt_trichotomy c h.cells.length with hlt | heq | hgt
  · rw [if_neg (by simpa using Nat.ne_of_lt hlt)]
    simp [List.getElem?_append_left hlt]
  · simp [heq]
  · rw [if_neg (by simpa using Nat.ne_of_gt hgt)]
    have hlen : (h.cells ++ [some node]).length ≤ c := by
      rw [List.length_append, List.length_singleton]
      omega
    rw [List.getElem?_eq_none hlen, List.getElem?_eq_none (Nat.le_of_lt hgt)]

/-- A node that is allocated has an address of its own, and leaves the other nodes alone. -/
theorem exists_alloc (h : NodeHeap α) (node : Node α) :
    ∃ h' new, h.alloc node = (h', new) ∧ h'.load new = some node ∧
      ∀ c n, h.load c = some n → c ≠ new ∧ h'.load c = some n := by
  have hload := h.load_alloc node
  refine ⟨(h.alloc node).1, (h.alloc node).2, rfl, by rw [hload, if_pos rfl], ?_⟩
  intro c n hc
  have hne : c ≠ (h.alloc node).2 := Nat.ne_of_lt (lt_of_load hc)
  exact ⟨hne, by rw [hload, if_neg hne, hc]⟩

theorem load_update {h h' : NodeHeap α} {a : Nat} {f : Node α → Node α}
    (hupd : h.update a f = some h') (c : Nat) :
    h'.load c = if c = a then (h.load a).map f else h.load c := by
  unfold update at hupd
  cases hload : h.load a with
  | none => simp [hload] at hupd
  | some node =>
    have hlt := lt_of_load hload
    simp only [hload, Option.map_some, Option.some.injEq] at hupd
    subst hupd
    by_cases hca : c = a
    · subst hca
      simp [load, List.getElem?_set_self hlt]
    · simp [load, List.getElem?_set_ne (Ne.symm hca), hca]

theorem load_free_ne (h : NodeHeap α) {a c : Nat} (hca : c ≠ a) : (h.free a).load c = h.load c := by
  simp [free, load, List.getElem?_set_ne (Ne.symm hca)]

/-- Freeing a live node leaves fewer of them. -/
theorem live_free_lt {h : NodeHeap α} {a : Nat} {node : Node α} (hload : h.load a = some node) :
    (h.free a).live < h.live := by
  obtain ⟨hlt, hget⟩ := List.getElem?_eq_some_iff.mp (cells_of_load hload)
  have hpos : 0 < h.cells.countP Option.isSome :=
    List.countP_pos_iff.mpr ⟨some node, hget ▸ List.getElem_mem hlt, rfl⟩
  unfold free live
  rw [List.countP_set hlt, hget]
  simp only [Option.isSome_some, if_true, Option.isSome_none, Bool.false_eq_true, if_false]
  omega

/-! ## Chains -/

inductive Chain (h : NodeHeap α) : Option Nat → List Nat → List α → Prop
  | nil : Chain h none [] []
  | cons {a : Nat} {node : Node α} {as : List Nat} {xs : List α} (hload : h.load a = some node)
      (hrest : Chain h node.next as xs) : Chain h (some a) (a :: as) (node.data :: xs)

theorem Chain.of_nil {h : NodeHeap α} {head : Option Nat} {xs : List α} (hc : Chain h head [] xs) :
    head = none ∧ xs = [] := by
  cases hc
  exact ⟨rfl, rfl⟩

theorem Chain.exists_load {h : NodeHeap α} {head : Option Nat} {as : List Nat} {xs : List α}
    (hc : Chain h head as xs) {c : Nat} (hmem : c ∈ as) : ∃ node, h.load c = some node := by
  induction hc with
  | nil => exact absurd hmem (by simp)
  | @cons a node as xs hload hrest ih =>
    rcases List.mem_cons.mp hmem with rfl | hmem
    · exact ⟨node, hload⟩
    · exact ih hmem

theorem Chain.congr {h h' : NodeHeap α} {head : Option Nat} {as : List Nat} {xs : List α}
    (hc : Chain h head as xs) (hsame : ∀ c ∈ as, h'.load c = h.load c) : Chain h' head as xs := by
  induction hc with
  | nil => exact .nil
  | @cons a node as xs hload hrest ih =>
    refine .cons ?_ (ih fun c hmem => hsame c (List.mem_cons_of_mem _ hmem))
    rw [hsame a List.mem_cons_self, hload]

theorem Chain.free {h : NodeHeap α} {a : Nat} {node : Node α} {as : List Nat} {xs : List α}
    (hc : Chain h node.next as xs) (hnodup : (a :: as).Nodup) :
    Chain (h.free a) node.next as xs := by
  refine hc.congr fun c hmem => load_free_ne h ?_
  rintro rfl
  exact (List.nodup_cons.mp hnodup).1 hmem

/-- A node is linked behind the last one. Of the nodes that were there, only the last one has its
`next` pointer changed; `prev` pointers do not matter. -/
theorem Chain.snoc {h h' : NodeHeap α} {head : Option Nat} {as : List Nat} {xs : List α} {b : Nat}
    {new : Node α} (hc : Chain h head as xs) (hnodup : as.Nodup) (hne : as ≠ [])
    (hold : ∀ c ∈ as, ∀ node, h.load c = some node → ∃ node', h'.load c = some node' ∧
      node'.data = node.data ∧ node'.next = if as.getLast? = some c then some b else node.next)
    (hnew : h'.load b = some new) (hnext : new.next = none) :
    Chain h' head (as ++ [b]) (xs ++ [new.data]) := by
  have hlast : Chain h' (some b) [b] [new.data] := by
    refine .cons hnew ?_
    rw [hnext]
    exact .nil
  induction hc with
  | nil => exact absurd rfl hne
  | @cons a node as xs hload hrest ih =>
    obtain ⟨node', hload', hdata', hnext'⟩ := hold a List.mem_cons_self node hload
    obtain ⟨hnot, hnodup'⟩ := List.nodup_cons.mp hnodup
    rw [← hdata']
    refine .cons hload' ?_
    cases as with
    | nil =>
      -- the last node so far: its `next` becomes the new one
      obtain ⟨-, rfl⟩ := hrest.of_nil
      rw [hnext', if_pos (by simp)]
      exact hlast
    | cons a₂ as =>
      -- an address appears once, so that this node is not the last one
      have hlast_eq : (a :: a₂ :: as).getLast? = (a₂ :: as).getLast? := List.getLast?_cons_cons
      have hne_last : (a :: a₂ :: as).getLast? ≠ some a := by
        rw [hlast_eq]
        exact fun heq => hnot (List.mem_of_getLast? heq)
      rw [hnext', if_neg hne_last]
      refine ih hnodup' (by simp) ?_
      intro c hmem node₂ hload₂
      rw [← hlast_eq]
      exact hold c (List.mem_cons_of_mem _ hmem) node₂ hload₂

/-! ## Queues -/

/-- The list that a head pointer stands for. -/
def IsQueue (h : NodeHeap α) (head : Option Nat) (xs : List α) : Prop :=
  ∃ as, Chain h head as xs ∧ as.Nodup ∧
    ∀ a node, head = some a → h.load a = some node → node.prev = as.tail.getLast?

theorem isQueue_nil (h : NodeHeap α) : IsQueue h none [] :=
  ⟨[], .nil, List.nodup_nil, fun _ _ heq => absurd heq (by simp)⟩

theorem isQueue_singleton {h : NodeHeap α} {a : Nat} {node : Node α} (hload : h.load a = some node)
    (hprev : node.prev = none) (hnext : node.next = none) : IsQueue h (some a) [node.data] := by
  refine ⟨[a], .cons hload (by rw [hnext]; exact .nil), by simp, ?_⟩
  intro a' node' heq hload'
  rw [← Option.some.inj heq, hload] at hload'
  rw [← Option.some.inj hload', hprev]
  rfl

end NodeHeap

end LibFep.Lib
