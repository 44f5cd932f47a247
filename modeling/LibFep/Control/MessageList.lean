import LibFep.Lib.NodeHeap
import LibFep.Control.Message

/-!
# LibFep — lists of control messages

`_fep_list_append` of `libfep/list.c`, `_fep_append_control_message` of `libfep/control.c` and the
loop that empties such a list, which `_fep_transceive_control_message` and `fep_client_dispatch`
have in common. The copies that `_fep_append_control_message` makes are values here: the list
shares nothing with the message it was given.

* **`fepListAppend_isQueue`** — an append adds the message at the end, and never follows a bad
  pointer.
* **`flushMessages_of_isQueue`** — the loop visits the messages from the first to the last.
-/

namespace LibFep

open Lib

def storeNode {α : Type} (h : NodeHeap α) (a : Nat) (f : Node α → Node α) :
    Except Fault (NodeHeap α) :=
  match h.update a f with
  | some h => .ok h
  | none => .error .badAccess

def loadNode {α : Type} (h : NodeHeap α) (a : Nat) : Except Fault (Node α) :=
  match h.load a with
  | some node => .ok node
  | none => .error .badAccess

/-- The branch of `_fep_list_append` for a list that is not empty: the last node is found through
`head->prev`. -/
def linkAfterLast {α : Type} (h : NodeHeap α) (head new : Nat) : Except Fault (NodeHeap α) := do
  let first ← loadNode h head
  -- `prev` of a single node is null, and the node itself is the last one
  let last := first.prev.getD head
  let h ← storeNode h last ({ · with next := some new })
  let h ← storeNode h head ({ · with prev := some new })
  storeNode h new ({ · with prev := some last, next := none })

def fepListAppend {α : Type} (h : NodeHeap α) (head : Option Nat) (data : α) :
    Except Fault (NodeHeap α × Option Nat) :=
  let (h, new) := h.alloc { prev := none, next := none, data := data }
  match head with
  | none => .ok (h, some new)
  | some head => (linkAfterLast h head new).map (·, some head)

def appendControlMessage (h : NodeHeap FepControlMessage) (head : Option Nat)
    (message : FepControlMessage) :
    Except Fault (NodeHeap FepControlMessage × Option Nat) :=
  fepListAppend h head message

/-- The loop `while (messages)`: the head is unlinked, its message handed on, and both are freed. -/
def flushMessages {α σ : Type} (use : σ → α → Except Fault σ) (h : NodeHeap α)
    (messages : Option Nat) (s : σ) : Except Fault (NodeHeap α × σ) :=
  match messages with
  | none => .ok (h, s)
  | some head =>
    match _ : h.load head with
    | none => .error .badAccess
    | some node => do
      let s ← use s node.data
      flushMessages use (h.free head) node.next s
  -- each round frees a node
  termination_by h.live
  decreasing_by exact NodeHeap.live_free_lt ‹_›

/-! ## What they do to a queue -/

theorem storeNode_ok {α : Type} {h : NodeHeap α} {a : Nat} (hload : (h.load a).isSome = true)
    (f : Node α → Node α) :
    ∃ h', storeNode h a f = .ok h' ∧
      ∀ c, h'.load c = (h.load c).map fun n => if c = a then f n else n := by
  obtain ⟨node, hnode⟩ := Option.isSome_iff_exists.mp hload
  obtain ⟨h', hupd⟩ : ∃ h', h.update a f = some h' := by
    simp [NodeHeap.update, hnode]
  refine ⟨h', by rw [storeNode, hupd], ?_⟩
  intro c
  rw [NodeHeap.load_update hupd]
  by_cases hc : c = a
  · simp [hc]
  · simp [hc]

/-- What linking a node changes: the `next` pointer of the last node and the `prev` pointers of the
head and of the new node. -/
theorem linkAfterLast_ok {α : Type} {h : NodeHeap α} {head new : Nat} {first lastNode node : Node α}
    (hfirst : h.load head = some first) (hlast : h.load (first.prev.getD head) = some lastNode)
    (hnew : h.load new = some node) (hhead : head ≠ new) (hne : first.prev.getD head ≠ new) :
    ∃ h', linkAfterLast h head new = .ok h' ∧
      ∀ c, h'.load c =
        if c = new then some { node with prev := some (first.prev.getD head), next := none }
        else (h.load c).map fun n =>
          { n with
            next := if c = first.prev.getD head then some new else n.next
            prev := if c = head then some new else n.prev } := by
  obtain ⟨last, hlast_eq⟩ : ∃ last, first.prev.getD head = last := ⟨_, rfl⟩
  rw [hlast_eq] at hlast hne ⊢
  -- each store changes the node at its address, and the others stay
  obtain ⟨h₁, hstore₁, hload₁⟩ :=
    storeNode_ok (Option.isSome_of_eq_some hlast) ({ · with next := some new })
  obtain ⟨h₂, hstore₂, hload₂⟩ := @storeNode_ok _ h₁ head
    (by rw [hload₁, Option.isSome_map, hfirst]; rfl) ({ · with prev := some new })
  obtain ⟨h₃, hstore₃, hload₃⟩ := @storeNode_ok _ h₂ new
    (by rw [hload₂, hload₁, Option.isSome_map, Option.isSome_map, hnew]; rfl)
    ({ · with prev := some last, next := none })
  refine ⟨h₃, ?_, ?_⟩
  · have hload : loadNode h head = .ok first := by rw [loadNode, hfirst]
    unfold linkAfterLast
    rw [hload]
    show (storeNode h (first.prev.getD head) _ >>= _) = _
    rw [hlast_eq, hstore₁]
    show (storeNode h₁ head _ >>= _) = _
    rw [hstore₂]
    exact hstore₃
  · intro c
    rw [hload₃, hload₂, hload₁, Option.map_map, Option.map_map]
    by_cases hc : c = new
    · rw [if_pos hc, hc, hnew]
      simp [Ne.symm hhead, Ne.symm hne]
    · rw [if_neg hc]
      refine congrArg (Option.map · (h.load c)) (funext fun n => ?_)
      simp only [Function.comp_apply, if_neg hc]
      -- the last node or not, and the head or not
      by_cases hl : c = last
      · by_cases hh : c = head
        · simp only [if_pos hl, if_pos hh]
        · simp only [if_pos hl, if_neg hh]
      · by_cases hh : c = head
        · simp only [if_neg hl, if_pos hh]
        · simp only [if_neg hl, if_neg hh]

/-- **An append adds the message at the end of the queue**, found through `head->prev`. -/
theorem fepListAppend_isQueue {α : Type} {h : NodeHeap α} {head : Option Nat} {xs : List α}
    (hq : NodeHeap.IsQueue h head xs) (y : α) :
    ∃ h' head', fepListAppend h head y = .ok (h', head') ∧
      NodeHeap.IsQueue h' head' (xs ++ [y]) := by
  obtain ⟨as, hc, hnodup, hprev⟩ := hq
  obtain ⟨h₀, new, halloc, hnew₀, hold⟩ := h.exists_alloc { prev := none, next := none, data := y }
  cases hc with
  | nil =>
    refine ⟨h₀, some new, ?_, NodeHeap.isQueue_singleton hnew₀ rfl rfl⟩
    rw [fepListAppend, halloc]
  | @cons a first as xs hload hrest =>
    have hprev_eq : first.prev = as.getLast? := hprev a first rfl hload
    -- `head->prev`, or the head itself, is the last node of the chain
    have hlast_eq : (a :: as).getLast? = some (first.prev.getD a) := by
      rw [hprev_eq, List.getLast?_cons]
    obtain ⟨lastNode, hlast⟩ :=
      (NodeHeap.Chain.cons hload hrest).exists_load (List.mem_of_getLast? hlast_eq)
    obtain ⟨hfresh, hload₀⟩ := hold a first hload
    obtain ⟨hlastFresh, hlast₀⟩ := hold _ _ hlast
    obtain ⟨h', hlink, hload'⟩ := linkAfterLast_ok hload₀ hlast₀ hnew₀ hfresh hlastFresh
    refine ⟨h', some a, ?_, (a :: as) ++ [new], ?_, ?_, ?_⟩
    · rw [fepListAppend, halloc]
      show (linkAfterLast h₀ a new).map _ = _
      rw [hlink]
      rfl
    -- a chain with the new node at its end
    · refine (NodeHeap.Chain.cons hload hrest).snoc hnodup (by simp) ?_
        (show h'.load new = some _ by rw [hload', if_pos rfl]) rfl
      intro c _ node hnode
      rw [hload', if_neg (hold c node hnode).1, (hold c node hnode).2]
      refine ⟨_, rfl, rfl, ?_⟩
      simp [hlast_eq, eq_comm]
    -- no address twice
    · refine List.nodup_append.mpr ⟨hnodup, by simp, ?_⟩
      intro c hc b hb
      obtain ⟨node, hnode⟩ := (NodeHeap.Chain.cons hload hrest).exists_load hc
      rw [List.mem_singleton.mp hb]
      exact (hold c node hnode).1
    -- and the head knows the new tail
    · intro a' node' heq hnode'
      obtain rfl := Option.some.inj heq
      rw [hload', if_neg hfresh, hload₀] at hnode'
      simp [← Option.some.inj hnode']

/-- The loop over a chain, whatever the `prev` pointers are. -/
theorem flushMessages_of_chain {α σ : Type} (use : σ → α → Except Fault σ) {h : NodeHeap α}
    {messages : Option Nat} {as : List Nat} {xs : List α} (hc : NodeHeap.Chain h messages as xs)
    (hnodup : as.Nodup) (s : σ) :
    ∃ h', flushMessages use h messages s = (xs.foldlM use s).map (h', ·) := by
  induction as generalizing h messages xs s with
  | nil =>
    obtain ⟨rfl, rfl⟩ := hc.of_nil
    exact ⟨h, by rw [flushMessages]; rfl⟩
  | cons a as ih =>
    cases hc with
    | @cons _ node _ xs hload hrest =>
      have hflush : flushMessages use h (some a) s =
          use s node.data >>= fun s => flushMessages use (h.free a) node.next s := by
        rw [flushMessages]
        split
        · next hnone => rw [hload] at hnone; exact absurd hnone (by simp)
        · next node' hsome =>
          obtain rfl := Option.some.inj (hload.symm.trans hsome)
          rfl
      rw [hflush, List.foldlM_cons]
      cases use s node.data with
      | error fault => exact ⟨h, rfl⟩
      | ok s' => exact ih (hrest.free hnodup) (List.nodup_cons.mp hnodup).2 s'

/-- **The loop hands on the messages of the queue in order**, and ends. -/
theorem flushMessages_of_isQueue {α σ : Type} (use : σ → α → Except Fault σ) {h : NodeHeap α}
    {messages : Option Nat} {xs : List α} (hq : NodeHeap.IsQueue h messages xs) (s : σ) :
    ∃ h', flushMessages use h messages s = (xs.foldlM use s).map (h', ·) := by
  obtain ⟨as, hc, hnodup, -⟩ := hq
  exact flushMessages_of_chain use hc hnodup s

/-- A use that does not fail. -/
theorem foldlM_ok {α σ : Type} (use : σ → α → σ) (xs : List α) (s : σ) :
    (xs.foldlM (fun s x => .ok (use s x)) s : Except Fault σ) = .ok (xs.foldl use s) := by
  induction xs generalizing s with
  | nil => rfl
  | cons x xs ih => exact ih (use s x)

theorem flushMessages_ok {α σ : Type} {use : σ → α → Except Fault σ} {h h' : NodeHeap α}
    {messages : Option Nat} {xs : List α} (hq : NodeHeap.IsQueue h messages xs) {s s' : σ}
    (hflush : flushMessages use h messages s = .ok (h', s')) : xs.foldlM use s = .ok s' := by
  obtain ⟨h'', hrun⟩ := flushMessages_of_isQueue use hq s
  rw [hflush] at hrun
  cases hfold : xs.foldlM use s with
  | error fault =>
    rw [hfold] at hrun
    exact absurd hrun (by simp [Except.map])
  | ok t =>
    rw [hfold] at hrun
    rw [(Prod.mk.inj (Except.ok.inj hrun)).2]

end LibFep
