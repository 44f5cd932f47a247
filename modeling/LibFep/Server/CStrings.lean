import Mathlib.Data.List.Basic
import LibFep.Server.Overlays
import LibFep.Control.Fragments

/-!
# LibFep — arguments that are used as C strings

A message carries its arguments as counted bytes, and `command_set_cursor_text`,
`command_set_status_text` and `command_send_text` of `fep/control.c` pass the pointer to the first one on
as a C string. The reads of the functions that get it are written out here: a read past the last byte of the
argument is a fault.

* **`textUse_eq`** — each of them reads the whole C string.
* **`staysInside_iff`** — the messages whose bytes are enough for this.
-/

namespace LibFep

open Lib

variable {loc : Locale}

/-! ## The reads -/

/-- The C string at the start of an argument, which `xstrdup` and `str_iconv` read to its NUL. -/
def readString : List UInt8 → Except Fault (List UInt8)
  | [] => .error .badAccess
  | b :: arg => if b = 0 then .ok [] else (readString arg).map (b :: ·)

/-- `strcmp (str, arg) == 0`, for an argument `arg`. -/
def strcmpArg : List UInt8 → List UInt8 → Except Fault Bool
  | _, [] => .error .badAccess
  | [], c :: _ => .ok (c = 0)
  | b :: str, c :: arg => if c = b then strcmpArg str arg else .ok false

/-- The reads of `_fep_output_status_text`, which copies a text unless it is the one it has. -/
def statusTextRead (fep : Fep loc) (arg : List UInt8) : Except Fault (List UInt8) := do
  if ← strcmpArg (cBytes fep.statusText) arg then return cBytes fep.statusText
  else readString arg

/-- The reads of `_fep_output_cursor_text`. The old text is freed by then, so that `strcmp` is never
called. -/
def cursorTextRead (arg : List UInt8) : Except Fault (List UInt8) := do
  if (← byteAt arg 0) ≠ 0 then readString arg
  else return []

/-- What a handler makes of the first argument of a message. -/
inductive TextUse where
  | ignores
  | passes (text : List UInt8)
  deriving DecidableEq, Repr

/-- The text that a handler passes on, if its attribute can be read. -/
def withAttribute (p : Platform) (request : FepControlMessage)
    (read : List UInt8 → Except Fault (List UInt8)) : Except Fault TextUse := do
  match ← controlMessageReadAttributeArg p request 1 with
  | some _ => return .passes (← read (request.args.headD []))
  | none => return .ignores

/-- What the handlers of the three commands read of their messages. -/
def textUse (p : Platform) (fep : Fep loc) (request : FepControlMessage) : Except Fault TextUse :=
  match request.command with
  | .setCursorText => withAttribute p request cursorTextRead
  | .setStatusText => withAttribute p request (statusTextRead fep)
  | .sendText => do return .passes (← readString (request.args.headD []))
  -- the others pass no text on
  | .sendData | .forwardKeyEvent | .keyEvent | .resizeEvent | .response => .ok .ignores

/-! ## A whole C string -/

theorem readString_eq_ok_iff {arg text : List UInt8} :
    readString arg = .ok text ↔ 0 ∉ text ∧ ∃ rest, arg = text ++ 0 :: rest := by
  induction arg generalizing text with
  | nil => simp [readString]
  | cons b arg ih =>
    rw [readString]
    split
    · next hb =>
      subst hb
      constructor
      · rintro h
        obtain rfl := Except.ok.inj h
        exact ⟨by simp, arg, rfl⟩
      · rintro ⟨hmem, rest, heq⟩
        cases text with
        | nil => rfl
        | cons c text => exact absurd (List.mem_cons.mpr (Or.inl (List.cons.inj heq).1)) hmem
    · next hb =>
      constructor
      · intro h
        cases hread : readString arg with
        | error f => exact absurd (hread ▸ h) (by simp [Except.map])
        | ok text' =>
          rw [hread] at h
          obtain rfl := Except.ok.inj h
          obtain ⟨hmem, rest, rfl⟩ := ih.mp hread
          exact ⟨by simpa [hmem] using Ne.symm hb, rest, rfl⟩
      · rintro ⟨hmem, rest, heq⟩
        cases text with
        | nil => exact absurd (List.cons.inj heq).1 hb
        | cons c text =>
          obtain ⟨rfl, harg⟩ := List.cons.inj heq
          rw [ih.mpr ⟨fun h => hmem (List.mem_cons_of_mem _ h), rest, harg⟩]
          rfl

theorem readString_of_mem {arg : List UInt8} (h : 0 ∈ arg) :
    readString arg = .ok (cBytes arg) := by
  rw [readString_eq_ok_iff]
  refine ⟨fun hmem => absurd (List.mem_takeWhile_imp hmem) (by simp), ?_⟩
  have hsplit := List.takeWhile_append_dropWhile (p := (· ≠ 0)) (l := arg)
  cases hdrop : arg.dropWhile (· ≠ 0) with
  | nil =>
    -- the NUL would be among the bytes before it
    rw [List.dropWhile_eq_nil_iff] at hdrop
    exact absurd (hdrop 0 h) (by simp)
  | cons b rest =>
    have hb : b = 0 := by
      have hhead := List.head?_dropWhile_not (· ≠ 0) arg
      rw [hdrop] at hhead
      simpa using hhead
    refine ⟨rest, ?_⟩
    rw [hdrop, hb] at hsplit
    exact hsplit.symm

theorem eq_cBytes_of_readString {arg text : List UInt8} (h : readString arg = .ok text) :
    text = cBytes arg := by
  obtain ⟨-, rest, harg⟩ := readString_eq_ok_iff.mp h
  have hmem : 0 ∈ arg := by
    rw [harg]
    simp
  exact Except.ok.inj (h.symm.trans (readString_of_mem hmem))

/-- `strcmp` reads no more than the C string, and all of it if it finds the strings equal. -/
theorem strcmpArg_bind {str arg : List UInt8} (h : 0 ∉ str) :
    (strcmpArg str arg >>= fun same => if same = true then .ok str else readString arg) =
      readString arg := by
  fun_induction strcmpArg str arg with
  | case1 str => rfl
  | case2 c arg =>
    rw [ok_bind, readString]
    by_cases hc : c = 0
    · rw [if_pos (by simpa using hc), if_pos hc]
    · rw [if_neg (by simpa using hc)]
  | case3 str c arg ih =>
    -- the same byte on both sides, and not the NUL
    obtain ⟨hc, hstr⟩ := List.ne_and_not_mem_of_not_mem_cons h
    rw [readString, if_neg (Ne.symm hc), ← ih hstr]
    cases strcmpArg str arg with
    | error f => rfl
    | ok same => cases same <;> rfl
  | case4 b str c arg hc => rfl

/-! ## What the handlers read -/

theorem statusTextRead_eq (fep : Fep loc) (arg : List UInt8) :
    statusTextRead fep arg = readString arg := by
  apply strcmpArg_bind
  intro hmem
  exact absurd (List.mem_takeWhile_imp hmem) (by simp)

theorem cursorTextRead_eq (arg : List UInt8) : cursorTextRead arg = readString arg := by
  cases arg with
  | nil => rfl
  | cons b arg =>
    have hread : byteAt (b :: arg) 0 = .ok b := rfl
    rw [cursorTextRead, hread, ok_bind]
    by_cases hb : b = 0
    · rw [if_neg (not_not.mpr hb), readString, if_pos hb]
      rfl
    · rw [if_pos hb]

/-- The commands whose handler takes its first argument for a C string. -/
def textCommands : List FepControlCommand := [.setCursorText, .setStatusText, .sendText]

/-- **The handlers read the whole C string**, where they do not ignore the message. -/
theorem textUse_eq (p : Platform) (fep : Fep loc) {request : FepControlMessage}
    (h : request.command ∈ textCommands) :
    textUse p fep request =
      if request.command = .sendText then
        (readString (request.args.headD [])).map TextUse.passes
      else withAttribute p request readString := by
  obtain ⟨command, args⟩ := request
  simp only [textCommands, List.mem_cons, List.not_mem_nil, or_false] at h
  rcases h with rfl | rfl | rfl
  · rw [if_neg (by simp)]
    show withAttribute p _ cursorTextRead = _
    rw [show cursorTextRead = readString from funext cursorTextRead_eq]
  · rw [if_neg (by simp)]
    show withAttribute p _ (statusTextRead fep) = _
    rw [show statusTextRead fep = readString from funext (statusTextRead_eq fep)]
  · rw [if_pos rfl]
    show (do return TextUse.passes (← readString (args.headD []))) = _
    cases readString (args.headD []) <;> rfl

/-! ## The handlers of the model -/

theorem exists_attribute_of_passes {p : Platform} {request : FepControlMessage} {text : List UInt8}
    (h : withAttribute p request readString = .ok (.passes text)) :
    ∃ attr, controlMessageReadAttributeArg p request 1 = .ok (some attr) ∧
      text = cBytes (request.args.headD []) := by
  obtain ⟨found, hfound, h⟩ := bind_eq_ok.mp h
  cases found with
  | none => exact absurd (Except.ok.inj h) (by simp)
  | some attr =>
    obtain ⟨text', hread, h⟩ := bind_eq_ok.mp h
    obtain rfl : text' = text := TextUse.passes.inj (Except.ok.inj h)
    exact ⟨attr, hfound, eq_cBytes_of_readString hread⟩

/-- The text that a handler passes on is the one that its output function gets. -/
theorem commands_of_passes {p : Platform} {fep : Fep loc} {request : FepControlMessage}
    {text : List UInt8} (h : textUse p fep request = .ok (.passes text)) :
    (request.command = .setCursorText → ∃ attr,
      commandSetCursorText p fep request = outputCursorText fep text attr) ∧
    (request.command = .setStatusText → ∃ attr,
      commandSetStatusText p fep request = outputStatusText fep text attr) := by
  constructor
  · intro hcommand
    rw [textUse_eq p fep (by rw [hcommand]; decide), if_neg (by rw [hcommand]; decide)] at h
    obtain ⟨attr, hattr, rfl⟩ := exists_attribute_of_passes h
    exact ⟨attr, by rw [commandSetCursorText, hattr]; rfl⟩
  · intro hcommand
    rw [textUse_eq p fep (by rw [hcommand]; decide), if_neg (by rw [hcommand]; decide)] at h
    obtain ⟨attr, hattr, rfl⟩ := exists_attribute_of_passes h
    exact ⟨attr, by rw [commandSetStatusText, hattr]; rfl⟩

theorem commandSendText_of_passes {e : Setting} {fep : Fep loc} {request : FepControlMessage}
    {text : List UInt8} (hcommand : request.command = .sendText)
    (h : textUse e.platform fep request = .ok (.passes text)) :
    commandSendText e request = ((e.locale.strIconv text).map cBytes).toList := by
  rw [textUse_eq e.platform fep (by rw [hcommand]; decide), if_pos hcommand] at h
  cases hread : readString (request.args.headD []) with
  | error f => exact absurd (hread ▸ h) (by simp [Except.map])
  | ok text' =>
    rw [hread] at h
    obtain rfl : text' = text := TextUse.passes.inj (Except.ok.inj h)
    rw [eq_cBytes_of_readString hread]
    rfl

/-! ## Messages that were received -/

/-- The handler reads no byte outside of the arguments, and passes a text on, if it does, that ends at a NUL
inside the first of them. -/
def StaysInside (p : Platform) (fep : Fep loc) (request : FepControlMessage) : Prop :=
  textUse p fep request = .ok .ignores ∨
    ∃ text rest, textUse p fep request = .ok (.passes text) ∧
      request.args.head? = some (text ++ 0 :: rest) ∧ 0 ∉ text

/-- The message is ignored for the length of its attribute. -/
def HasNoAttribute (request : FepControlMessage) : Prop :=
  request.command ≠ .sendText ∧ ∀ arg, request.args[1]? = some arg → arg.length ≠ 16

theorem withAttribute_pair (p : Platform) (command : FepControlCommand) (arg attr : List UInt8)
    (read : List UInt8 → Except Fault (List UInt8)) :
    withAttribute p ⟨command, [arg, attr]⟩ read =
      if attr.length = 16 then (read arg).map TextUse.passes else .ok .ignores := by
  rw [withAttribute, controlMessageReadAttributeArg_eq_map]
  have hattr : controlMessageArg ⟨command, [arg, attr]⟩ 1 16 =
      if attr.length = 16 then .ok (some attr) else .ok none := by
    rw [controlMessageArg, if_neg (by simp)]
    show (if attr.length ≠ 16 then Except.ok none else Except.ok (some attr)) = _
    rw [ite_not]
  rw [hattr]
  split
  · show (do return TextUse.passes (← read arg)) = _
    cases read arg <;> rfl
  · rfl

/-- The reads of a C string stay inside the argument exactly if it has a NUL. -/
theorem passes_readString_iff {arg : List UInt8} :
    (∃ text rest, (readString arg).map TextUse.passes = .ok (.passes text) ∧
      some arg = some (text ++ 0 :: rest) ∧ 0 ∉ text) ↔ 0 ∈ arg := by
  constructor
  · rintro ⟨text, rest, -, harg, -⟩
    rw [Option.some.inj harg]
    simp
  · intro h
    have hread := readString_of_mem h
    obtain ⟨hmem, rest, harg⟩ := readString_eq_ok_iff.mp hread
    exact ⟨cBytes arg, rest, by rw [hread]; rfl, congrArg some harg, hmem⟩

/-- **The handlers stay inside the arguments** of a message that was received exactly if they ignore it, or
its first argument has a NUL. -/
theorem staysInside_iff (p : Platform) (fep : Fep loc) {fd fd' : Fd} {message : FepControlMessage}
    (hread : readControlMessage p fd = .ret (some message) fd')
    (hcommand : message.command ∈ textCommands) :
    StaysInside p fep message ↔ HasNoAttribute message ∨ 0 ∈ message.args.headD [] := by
  have hlength := length_args_of_read hread
  unfold StaysInside HasNoAttribute
  rw [textUse_eq p fep hcommand]
  obtain ⟨command, args⟩ := message
  have hignores (arg : List UInt8) :
      (readString arg).map TextUse.passes ≠ .ok .ignores := by
    cases readString arg <;> simp [Except.map]
  by_cases hsend : command = .sendText
  · -- there is one argument
    subst hsend
    obtain ⟨arg, rfl⟩ := List.length_eq_one_iff.mp hlength
    have hiff := @passes_readString_iff arg
    simp only [if_true, List.headD_cons, List.head?_cons, ne_eq, not_true_eq_false, false_and,
      false_or, hignores, hiff]
  · have htwo : args.length = 2 := by
      simp only [textCommands, List.mem_cons, List.not_mem_nil, or_false] at hcommand
      rcases hcommand with rfl | rfl | rfl
      · exact hlength
      · exact hlength
      · exact absurd rfl hsend
    obtain ⟨arg, attr, rfl⟩ := List.length_eq_two.mp htwo
    simp only [if_neg hsend, withAttribute_pair, List.headD_cons, List.head?_cons]
    by_cases hattr : attr.length = 16
    · have hiff := @passes_readString_iff arg
      simp only [if_pos hattr, hiff]
      simp [hignores, hattr]
    · simp [hattr, hsend]

/-- `SEND_TEXT` with the text `a` and its NUL. -/
theorem staysInside_iff_nul :
    StaysInside .x86_64 (Fep.new .c) ⟨.sendText, [[0x61, 0]]⟩ ↔
      HasNoAttribute ⟨.sendText, [[0x61, 0]]⟩ ∨ 0 ∈ [[0x61, 0]].headD ([] : List UInt8) :=
  @staysInside_iff .c .x86_64 (Fep.new .c) ⟨[3, 2, 0, 0, 0, 0x61, 0], [.full, .full, .full]⟩ ⟨[], []⟩
    ⟨.sendText, [[0x61, 0]]⟩ (by decide) (by decide)

/-- `SEND_TEXT` with the byte `a`, as an unfriendly client sends it. -/
theorem not_staysInside_unterminated :
    ¬ ∀ (p : Platform) (fep : Fep .c) (fd fd' : Fd) (message : FepControlMessage),
      readControlMessage p fd = .ret (some message) fd' → message.command ∈ textCommands →
      StaysInside p fep message := by
  intro h
  have hstays := h .x86_64 (Fep.new .c) ⟨[3, 1, 0, 0, 0, 0x61], [.full, .full, .full]⟩ ⟨[], []⟩
    ⟨.sendText, [[0x61]]⟩ (by decide) (by decide)
  have huse : textUse .x86_64 (Fep.new .c) ⟨.sendText, [[0x61]]⟩ = .error .badAccess := rfl
  rcases hstays with h | ⟨text, rest, h, -⟩
  · exact absurd (huse.symm.trans h) (by simp)
  · exact absurd (huse.symm.trans h) (by simp)

end LibFep
