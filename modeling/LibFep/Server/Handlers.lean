import LibFep.Client.Requests
import LibFep.Input.Key
import LibFep.Text.Locale

/-!
# LibFep — what the handlers write to the pty

The handlers of `fep/control.c` as far as the child sees them: `command_send_text`,
`command_send_data` and `command_forward_key_event`. The two others write to the terminal only.

* **`ptyOutput_message`** — what the server writes for a request of a client, in terms of what the
  client has asked for.
-/

namespace LibFep

open Lib

/-- What the server runs on: the platform, the locale, and the strings of the terminal's keys. -/
structure Setting where
  platform : Platform
  locale : Locale
  keyStrings : KeyStrings

/-- An x86-64 machine in the locale `C`, with a terminal that has no key strings. -/
def Setting.default : Setting := ⟨.x86_64, .c, fun _ => none⟩

/-- The bytes of a C string, up to its NUL. -/
def cBytes (str : List UInt8) : List UInt8 := str.takeWhile (· ≠ 0)

/-- `_fep_output_send_text`: nothing is written for a text that cannot be converted. -/
def outputSendText (e : Setting) (text : List UInt8) : List (List UInt8) :=
  ((e.locale.strIconv (cBytes text)).map cBytes).toList

def commandSendText (e : Setting) (request : FepControlMessage) : List (List UInt8) :=
  outputSendText e (request.args.headD [])

def commandSendData (request : FepControlMessage) : List (List UInt8) :=
  [request.args.headD []]

/-- The bytes of a key, `none` where `_fep_key_to_string` returns `NULL`. -/
def outputKey (e : Setting) (keyval modifiers : BitVec 32) : List (List UInt8) :=
  if keyToString e.keyStrings keyval modifiers = [] then []
  else [keyToString e.keyStrings keyval modifiers]

def commandForwardKeyEvent (e : Setting) (request : FepControlMessage) : List (List UInt8) :=
  match controlMessageReadUint32Arg e.platform request 0,
    controlMessageReadUint32Arg e.platform request 1 with
  | .ok (some keyval), .ok (some modifiers) => outputKey e keyval modifiers
  | _, _ => []

/-- The pieces that the handler of a message writes to the pty, each in full. An empty piece takes no
call of `write`. -/
def ptyOutput (e : Setting) (message : FepControlMessage) : List (List UInt8) :=
  match message.command with
  | .sendText => commandSendText e message
  | .sendData => commandSendData message
  | .forwardKeyEvent => commandForwardKeyEvent e message
  | .setCursorText | .setStatusText => []
  -- no handler is defined for these
  | .keyEvent | .resizeEvent | .response => []

/-! ## Requests -/

/-- What a request asks the server to write. -/
def requestOutput (e : Setting) : ClientRequest → List (List UInt8)
  | .setCursorText _ _ | .setStatusText _ _ => []
  | .sendText text => outputSendText e text
  | .sendData data => [data]
  | .forwardKeyEvent keyval modifiers => outputKey e keyval modifiers

theorem cBytes_cString (text : List UInt8) : cBytes (cString text) = cBytes text := by
  have htext : ∀ b ∈ text.takeWhile (· ≠ 0), (decide (b ≠ 0)) = true :=
    fun b hb => List.mem_takeWhile_imp (p := fun b => decide (b ≠ 0)) hb
  rw [cBytes, cString, List.takeWhile_append_of_pos htext]
  simp [cBytes]

/-- **The server writes what the client has asked for.** -/
theorem ptyOutput_message (e : Setting) (r : ClientRequest) :
    ptyOutput e (r.message e.platform) = requestOutput e r := by
  cases r with
  | setCursorText text attr => rfl
  | setStatusText text attr => rfl
  | sendText text =>
    show outputSendText e (cString text) = outputSendText e text
    rw [outputSendText, cBytes_cString, outputSendText]
  | sendData data => rfl
  | forwardKeyEvent keyval modifiers =>
    -- both numbers are read back as they were sent
    show commandForwardKeyEvent e _ = outputKey e keyval modifiers
    rw [commandForwardKeyEvent, controlMessageReadUint32Arg_wireWord e.platform (w := keyval) rfl,
      controlMessageReadUint32Arg_wireWord e.platform (w := modifiers) rfl]

end LibFep
