import LibFep.Server.CStrings
import LibFep.Term.Blanking

/-!
# LibFep — handlers that do not get through

A handler of `fep/control.c` may end the server: it reads its text past the end of the argument, it gives
`xcharalloc` the width -1 of a text that is to be blanked, or it takes the length of the null pointer that
`str_iconv` returns for a text that cannot be converted.

* **`runHandler_ok_iff`** — when the handler of a message gets through, on the screen that it finds.
* **`exists_runHandler`** — a harmless message is handled on any screen that its like and the child have
  left.
-/

namespace LibFep

open Lib

/-! ## The handlers -/

/-- The handler of a message: the screen that it leaves, and the pieces that it writes to the pty, each in
full. -/
def runHandler (e : Setting) (fep : Fep e.locale) (message : FepControlMessage) :
    Except Fault (Fep e.locale × List (List UInt8)) := do
  -- the reads of a text that is passed on
  let _ ← textUse e.platform fep message
  match message.command with
  | .setCursorText => return (← commandSetCursorText e.platform fep message, [])
  | .setStatusText => return (← commandSetStatusText e.platform fep message, [])
  | .sendText => return (fep, commandSendText e message)
  | .sendData => return (fep, commandSendData message)
  | .forwardKeyEvent => return (fep, commandForwardKeyEvent e message)
  -- no handler is defined for these
  | .keyEvent | .resizeEvent | .response => return (fep, [])

/-- A text that is shown, if it is not empty. -/
def Displayable (loc : Locale) (text : List UInt8) : Prop :=
  text ≠ [] → (loc.strIconv text).isSome = true

instance (loc : Locale) (text : List UInt8) : Decidable (Displayable loc text) :=
  inferInstanceAs (Decidable (text ≠ [] → (loc.strIconv text).isSome = true))

/-- The text at the cursor can be blanked. -/
def Blankable {loc : Locale} (fep : Fep loc) : Prop :=
  ∀ c, fep.cursorText = some c → 0 ≤ min (strwidth loc c.converted) fep.room

/-- What the handler of a message needs, of its arguments and of the screen. A message that was received
has all its arguments. -/
def Survives (e : Setting) (fep : Fep e.locale) (message : FepControlMessage) : Prop :=
  match message.command, message.args with
  | .setCursorText, arg :: attr :: _ =>
    attr.length = 16 → 0 ∈ arg ∧ Displayable e.locale (cBytes arg) ∧ Blankable fep
  | .setStatusText, arg :: attr :: _ => attr.length = 16 → 0 ∈ arg ∧ Displayable e.locale (cBytes arg)
  | .sendText, arg :: _ => 0 ∈ arg
  -- a handler reads behind the arguments
  | .setCursorText, [_] | .setStatusText, [_] | .sendText, [] => False
  | _, _ => True

variable {loc : Locale} {e : Setting}

/-! ## When a handler gets through -/

theorem isOk_outputStringWithAttribute_iff (fep : Fep loc) (str : List UInt8) (width : Int)
    (attr : FepAttribute) :
    (∃ fep', outputStringWithAttribute fep str width attr = .ok fep') ↔ Displayable loc str := by
  constructor
  · rintro ⟨fep', h⟩ hne
    rw [outputStringWithAttribute, if_neg hne] at h
    cases hconv : loc.strIconv str with
    | none =>
      rw [hconv] at h
      exact absurd h (by simp)
    | some local' => rfl
  · intro hconv
    by_cases hne : str = []
    · exact ⟨fep, by rw [outputStringWithAttribute, if_pos hne]⟩
    · obtain ⟨fep', hok, -⟩ := outputStringWithAttribute_of_converts fep hne (hconv hne) width attr
      exact ⟨fep', hok⟩

theorem isOk_outputStatusText_iff (fep : Fep loc) (text : List UInt8) (attr : FepAttribute) :
    (∃ fep', outputStatusText fep text attr = .ok fep') ↔ Displayable loc text := by
  constructor
  · rintro ⟨fep', h⟩
    obtain ⟨shown, hshown, -⟩ := bind_eq_ok.mp h
    exact (isOk_outputStringWithAttribute_iff _ _ _ _).mp ⟨shown, hshown⟩
  · exact fun hconv => exists_outputStatusText fep hconv attr

theorem isOk_blankCursorText_iff (fep : Fep loc) :
    (∃ fep', blankCursorText fep = .ok fep') ↔ Blankable fep := by
  unfold blankCursorText Blankable
  cases hc : fep.cursorText with
  | none => exact iff_of_true ⟨fep, rfl⟩ fun c hc => absurd hc (by simp)
  | some old =>
    have hblank : (∀ c, some old = some c → 0 ≤ min (strwidth loc c.converted) fep.room) ↔
        ¬ min (strwidth loc old.converted) fep.room < 0 := by simp
    rw [hblank]
    constructor
    · rintro ⟨fep', h⟩ hneg
      exact absurd ((if_pos hneg).symm.trans h) (by simp)
    · exact fun hpos => ⟨_, if_neg hpos⟩

theorem isOk_drawCursorText_iff (fep : Fep loc) (text : List UInt8) (attr : FepAttribute) :
    (∃ fep', drawCursorText fep text attr = .ok fep') ↔ Displayable loc text := by
  unfold drawCursorText
  by_cases hne : text = []
  · subst hne
    exact iff_of_true ⟨fep, rfl⟩ fun h => absurd rfl h
  · rw [dif_pos hne]
    by_cases hconv : (loc.strIconv text).isSome = true
    · obtain ⟨fep', hok, -⟩ := drawCursorText_of_converts fep ⟨text, hne, hconv⟩ attr
      rw [drawCursorText, dif_pos hne] at hok
      exact iff_of_true ⟨fep', hok⟩ fun _ => hconv
    · rw [dif_neg hconv]
      exact iff_of_false (by simp) fun h => hconv (h hne)

theorem isOk_outputCursorText_iff (fep : Fep loc) (text : List UInt8) (attr : FepAttribute) :
    (∃ fep', outputCursorText fep text attr = .ok fep') ↔ Displayable loc text ∧ Blankable fep := by
  rw [← isOk_blankCursorText_iff]
  constructor
  · rintro ⟨fep', h⟩
    obtain ⟨mid, hblank, hdraw⟩ := bind_eq_ok.mp h
    exact ⟨(isOk_drawCursorText_iff mid text attr).mp ⟨fep', hdraw⟩, mid, hblank⟩
  · rintro ⟨hconv, mid, hblank⟩
    obtain ⟨fep', hdraw⟩ := (isOk_drawCursorText_iff mid text attr).mpr hconv
    exact ⟨fep', bind_eq_ok.mpr ⟨mid, hblank, hdraw⟩⟩

/-- Two calls of which the second takes nothing from the first. -/
theorem isOk_seq_iff {α β : Type} {x : Except Fault α} {y : Except Fault β} :
    (∃ r, (x >>= fun _ => y) = .ok r) ↔ (∃ a, x = .ok a) ∧ ∃ r, y = .ok r := by
  constructor
  · rintro ⟨r, h⟩
    obtain ⟨a, hx, hy⟩ := bind_eq_ok.mp h
    exact ⟨⟨a, hx⟩, r, hy⟩
  · rintro ⟨⟨a, hx⟩, r, hy⟩
    exact ⟨r, bind_eq_ok.mpr ⟨a, hx, hy⟩⟩

theorem isOk_map_iff {α β : Type} {x : Except Fault α} {f : α → β} :
    (∃ r, (do return f (← x)) = Except.ok (ε := Fault) r) ↔ ∃ a, x = .ok a := by
  cases x with
  | error fault => exact iff_of_false (by rintro ⟨r, h⟩; cases h) (by simp)
  | ok a => exact iff_of_true ⟨f a, rfl⟩ ⟨a, rfl⟩

theorem isOk_readString_iff {arg : List UInt8} : (∃ text, readString arg = .ok text) ↔ 0 ∈ arg := by
  constructor
  · rintro ⟨text, h⟩
    obtain ⟨-, rest, rfl⟩ := readString_eq_ok_iff.mp h
    simp
  · exact fun h => ⟨cBytes arg, readString_of_mem h⟩

theorem controlMessageReadAttributeArg_cons (p : Platform) (command : FepControlCommand)
    (arg attr : List UInt8) (rest : List (List UInt8)) :
    controlMessageReadAttributeArg p ⟨command, arg :: attr :: rest⟩ 1 =
      .ok (if attr.length = 16 then some (attributeOf p attr) else none) := by
  have harg : controlMessageArg ⟨command, arg :: attr :: rest⟩ 1 16 =
      if attr.length ≠ 16 then .ok none else .ok (some attr) := by
    rw [controlMessageArg, if_neg (by simp)]
    rfl
  rw [controlMessageReadAttributeArg_eq_map, harg, ite_not]
  split <;> rfl

/-- The two handlers that show a text, if the message has an attribute. -/
theorem isOk_shown_iff (p : Platform) {fep : Fep loc} {message : FepControlMessage}
    {out : List UInt8 → FepAttribute → Except Fault (Fep loc)} {cond : List UInt8 → Prop}
    (hout : ∀ text attr, (∃ fep', out text attr = .ok fep') ↔ cond text) :
    ((∃ use, withAttribute p message readString = .ok use) ∧
      ∃ fep', (do
        match ← controlMessageReadAttributeArg p message 1 with
        | some attr => out (cBytes (message.args.headD [])) attr
        | none => return fep) = Except.ok (ε := Fault) fep') ↔
      match message.args with
      | arg :: attr :: _ => attr.length = 16 → 0 ∈ arg ∧ cond (cBytes arg)
      | [_] => False
      | [] => True := by
  obtain ⟨command, args⟩ := message
  match args with
  | [] => exact iff_of_true ⟨⟨.ignores, rfl⟩, fep, rfl⟩ trivial
  | [arg] =>
    refine iff_of_false ?_ id
    rintro ⟨⟨use, h⟩, -⟩
    exact absurd h (by simp [withAttribute, controlMessageReadAttributeArg_eq_map, controlMessageArg,
      Except.map, bind, Except.bind])
  | arg :: attr :: rest =>
    unfold withAttribute
    rw [controlMessageReadAttributeArg_cons]
    by_cases hattr : attr.length = 16
    · rw [if_pos hattr]
      show (∃ use, (do return TextUse.passes (← readString arg)) = Except.ok (ε := Fault) use) ∧
        (∃ fep', out (cBytes arg) (attributeOf p attr) = .ok fep') ↔ _
      rw [isOk_map_iff, isOk_readString_iff, hout]
      exact ⟨fun h _ => h, fun h => h hattr⟩
    · rw [if_neg hattr]
      exact iff_of_true ⟨⟨.ignores, rfl⟩, fep, rfl⟩ fun h => absurd h hattr

/-- **When the handler of a message gets through.** -/
theorem runHandler_ok_iff (e : Setting) (fep : Fep e.locale) (message : FepControlMessage) :
    (∃ r, runHandler e fep message = .ok r) ↔ Survives e fep message := by
  unfold runHandler
  rw [isOk_seq_iff]
  obtain ⟨command, args⟩ := message
  have hpure {r : Fep e.locale × List (List UInt8)} :
      ∃ r', (.ok r : Except Fault (Fep e.locale × List (List UInt8))) = .ok r' := ⟨r, rfl⟩
  cases command with
  | setCursorText =>
    rw [textUse_eq e.platform fep (by simp [textCommands]), if_neg (by simp), isOk_map_iff]
    refine (isOk_shown_iff e.platform fun text attr => isOk_outputCursorText_iff fep text attr).trans ?_
    rcases args with _ | ⟨a, _ | ⟨b, rest⟩⟩ <;> exact Iff.rfl
  | setStatusText =>
    rw [textUse_eq e.platform fep (by simp [textCommands]), if_neg (by simp), isOk_map_iff]
    refine (isOk_shown_iff e.platform fun text attr => isOk_outputStatusText_iff fep text attr).trans ?_
    rcases args with _ | ⟨a, _ | ⟨b, rest⟩⟩ <;> exact Iff.rfl
  | sendText =>
    rw [textUse_eq e.platform fep (by simp [textCommands]), if_pos rfl]
    refine (and_iff_left hpure).trans ?_
    cases args with
    | nil => exact iff_of_false (by rintro ⟨use, h⟩; cases h) id
    | cons arg rest => exact isOk_map_iff.trans isOk_readString_iff
  | sendData | forwardKeyEvent | keyEvent | resizeEvent | response =>
    exact iff_of_true ⟨⟨.ignores, rfl⟩, hpure⟩ trivial

/-- A handler that gets through has written to the pty what the message says. -/
theorem runHandler_output {fep fep' : Fep e.locale} {message : FepControlMessage}
    {pieces : List (List UInt8)} (h : runHandler e fep message = .ok (fep', pieces)) :
    pieces = ptyOutput e message := by
  obtain ⟨use, -, h⟩ := bind_eq_ok.mp h
  obtain ⟨command, args⟩ := message
  cases command with
  | setCursorText | setStatusText =>
    obtain ⟨shown, -, h⟩ := bind_eq_ok.mp h
    exact (Prod.mk.inj (Except.ok.inj h)).2.symm
  | sendText | sendData | forwardKeyEvent | keyEvent | resizeEvent | response =>
    exact (Prod.mk.inj (Except.ok.inj h)).2.symm

/-! ## Harmless messages -/

/-- What a message needs to be handled whatever its like have left on the screen: its text is a C string
that can be converted, and a text for the cursor has a width. -/
def Harmless (e : Setting) (message : FepControlMessage) : Prop :=
  match message.command, message.args with
  | .setCursorText, arg :: attr :: _ =>
    attr.length = 16 → 0 ∈ arg ∧ Displayable e.locale (cBytes arg) ∧ HasWidth e.locale (cBytes arg)
  | .setStatusText, arg :: attr :: _ => attr.length = 16 → 0 ∈ arg ∧ Displayable e.locale (cBytes arg)
  | .sendText, arg :: _ => 0 ∈ arg
  | .setCursorText, [_] | .setStatusText, [_] | .sendText, [] => False
  | _, _ => True

/-- A message that the server can deal with: it is read back as it was written, and it is harmless. -/
def Servable (e : Setting) (message : FepControlMessage) : Prop :=
  Readable e.platform [message] ∧ Harmless e message

/-- A request of a program that makes a harmless message. -/
def ClientRequest.Harmless (e : Setting) : ClientRequest → Prop
  | .setCursorText text _ => Displayable e.locale (cBytes text) ∧ HasWidth e.locale (cBytes text)
  | .setStatusText text _ => Displayable e.locale (cBytes text)
  | .sendText _ | .sendData _ | .forwardKeyEvent _ _ => True

/-- Of a request only the text matters: it is sent with its NUL. -/
theorem harmless_message_iff (e : Setting) (r : ClientRequest) :
    Harmless e (r.message e.platform) ↔ r.Harmless e := by
  have hnul (text : List UInt8) : 0 ∈ cString text := by simp [cString]
  have hattr (attr : FepAttribute) : (e.platform.wireAttribute attr).length = 16 :=
    length_wireAttribute e.platform attr
  cases r with
  | setCursorText text attr =>
    show (_ → 0 ∈ cString text ∧ Displayable e.locale (cBytes (cString text)) ∧
      HasWidth e.locale (cBytes (cString text))) ↔ _
    rw [cBytes_cString, forall_prop_of_true (hattr _), and_iff_right (hnul text)]
    rfl
  | setStatusText text attr =>
    show (_ → 0 ∈ cString text ∧ Displayable e.locale (cBytes (cString text))) ↔ _
    rw [cBytes_cString, forall_prop_of_true (hattr _), and_iff_right (hnul text)]
    rfl
  | sendText text => exact iff_of_true (hnul text) trivial
  | sendData data => exact Iff.rfl
  | forwardKeyEvent keyval modifiers => exact Iff.rfl

theorem Showable.blankable {fep : Fep loc} (hs : Showable fep) : Blankable fep :=
  (isOk_blankCursorText_iff fep).mp (exists_blankCursorText hs.col hs.width)

theorem survives_of_harmless {fep : Fep e.locale} (hs : Showable fep) {message : FepControlMessage}
    (h : Harmless e message) : Survives e fep message := by
  obtain ⟨command, args⟩ := message
  match command, args, h with
  | .setCursorText, [], _ | .setStatusText, [], _ => trivial
  | .setCursorText, _ :: _ :: _, h =>
    exact fun hattr => ⟨(h hattr).1, (h hattr).2.1, hs.blankable⟩
  | .setStatusText, _ :: _ :: _, h | .sendText, _ :: _, h => exact h
  | .sendData, _, _ | .forwardKeyEvent, _, _ | .keyEvent, _, _ | .resizeEvent, _, _
  | .response, _, _ => trivial

/-- The next harmless message is handled as well. -/
theorem Showable.runHandler {fep fep' : Fep e.locale} (hs : Showable fep)
    {message : FepControlMessage} (hmessage : Harmless e message) {pieces : List (List UInt8)}
    (h : LibFep.runHandler e fep message = .ok (fep', pieces)) : Showable fep' := by
  obtain ⟨use, -, h⟩ := bind_eq_ok.mp h
  obtain ⟨command, args⟩ := message
  match command, args, hmessage, h with
  | .setCursorText, [], _, h | .setStatusText, [], _, h =>
    exact (Prod.mk.inj (Except.ok.inj h)).1 ▸ hs
  | .setCursorText, arg :: attr :: rest, hmessage, h =>
    obtain ⟨shown, hshown, h⟩ := bind_eq_ok.mp h
    rw [← (Prod.mk.inj (Except.ok.inj h)).1]
    rw [commandSetCursorText, controlMessageReadAttributeArg_cons] at hshown
    by_cases hattr : attr.length = 16
    · rw [if_pos hattr] at hshown
      exact hs.cursorText (hmessage hattr).2.2 hshown
    · rw [if_neg hattr] at hshown
      exact Except.ok.inj hshown ▸ hs
  | .setStatusText, arg :: attr :: rest, hmessage, h =>
    obtain ⟨shown, hshown, h⟩ := bind_eq_ok.mp h
    rw [← (Prod.mk.inj (Except.ok.inj h)).1]
    rw [commandSetStatusText, controlMessageReadAttributeArg_cons] at hshown
    by_cases hattr : attr.length = 16
    · rw [if_pos hattr] at hshown
      exact hs.statusText (hmessage hattr).2 hshown
    · rw [if_neg hattr] at hshown
      exact Except.ok.inj hshown ▸ hs
  | .sendText, _, _, h | .sendData, _, _, h | .forwardKeyEvent, _, _, h | .keyEvent, _, _, h
  | .resizeEvent, _, _, h | .response, _, _, h => exact (Prod.mk.inj (Except.ok.inj h)).1 ▸ hs

/-- **A harmless message is handled** on a screen that can be shown, and leaves one. -/
theorem exists_runHandler {fep : Fep e.locale} (hs : Showable fep) {message : FepControlMessage}
    (h : Harmless e message) :
    ∃ fep', runHandler e fep message = .ok (fep', ptyOutput e message) ∧ Showable fep' := by
  obtain ⟨⟨fep', pieces⟩, hrun⟩ := (runHandler_ok_iff e fep message).mpr (survives_of_harmless hs h)
  obtain rfl := runHandler_output hrun
  exact ⟨fep', hrun, hs.runHandler h hrun⟩

end LibFep
