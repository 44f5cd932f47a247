import Mathlib.Data.List.Basic
import LibFep.Client.Dispatch
import LibFep.Control.HostOrder

/-!
# LibFep — the requests that a client answers

`fep_client_dispatch` answers the request that it reads. Which one this is depends on the reader of
`libfep/control.c`, which takes the length of some arguments for another one: such a request is never
answered, whatever the filter.

* **`tellFilter`** — a filter that passes on all that it is told, so that no other request is answered in
  the same way.
* **`answered_iff`** — the requests that every client answers.
-/

namespace LibFep

open Lib

/-! ## A filter that tells what it sees -/

def tellFilter : FepEventFilter
  | .keyPress keyval modifiers source =>
    ([.forwardKeyEvent keyval modifiers, .sendData source], 0)
  | .resized cols rows => ([.forwardKeyEvent cols rows], 0)

theorem uint32Of_inj (p : Platform) {a b : List UInt8} (ha : a.length = 4) (hb : b.length = 4)
    (h : p.uint32Of a = p.uint32Of b) : a = b := by
  rw [p.uint32Of_eq, p.uint32Of_eq] at h
  obtain ⟨a0, as, rfl⟩ := List.exists_of_length_succ a ha
  obtain ⟨a1, a2, a3, rfl⟩ := List.length_eq_three.mp (Nat.succ.inj ha)
  obtain ⟨b0, bs, rfl⟩ := List.exists_of_length_succ b hb
  obtain ⟨b1, b2, b3, rfl⟩ := List.length_eq_three.mp (Nat.succ.inj hb)
  obtain ⟨ha0, ha1, ha2, ha3⟩ := leByte_ofLeBytes a0 a1 a2 a3
  obtain ⟨hb0, hb1, hb2, hb3⟩ := leByte_ofLeBytes b0 b1 b2 b3
  simp only [List.getD_cons_zero, List.getD_cons_succ] at h
  rw [h] at ha0 ha1 ha2 ha3
  rw [ha0.symm.trans hb0, ha1.symm.trans hb1, ha2.symm.trans hb2, ha3.symm.trans hb3]

theorem wireWord_inj (p : Platform) {a b : BitVec 32} (h : p.wireWord a = p.wireWord b) : a = b := by
  rw [← uint32Of_wireWord p a, h, uint32Of_wireWord]

/-- The response names the command. -/
theorem command_of_expectedMessages {p : Platform} {r r' : FepControlMessage}
    (h : expectedMessages p (some tellFilter) r = expectedMessages p (some tellFilter) r') :
    r.command.toByte = r'.command.toByte := by
  have hresponse := congrArg FepControlMessage.args (List.cons.inj h).1
  exact (List.cons.inj (List.cons.inj hresponse).1).1

/-- **No two requests are answered in the same way.** -/
theorem eq_of_expectedMessages (p : Platform) {r r' : FepControlMessage} (hr : ValidRequest r)
    (hr' : ValidRequest r')
    (h : expectedMessages p (some tellFilter) r = expectedMessages p (some tellFilter) r') : r = r' := by
  cases hr with
  | keyEvent keyval modifiers source hkeyval hmodifiers =>
    cases hr' with
    | keyEvent keyval' modifiers' source' hkeyval' hmodifiers' =>
      simp [expectedMessages, requestedMessages, requestEvent, tellFilter, ClientRequest.message,
        sentBack, Handles, expectedResponse] at h
      obtain ⟨⟨hfirst, hsecond⟩, rfl⟩ := h
      rw [uint32Of_inj p hkeyval hkeyval' (wireWord_inj p hfirst),
        uint32Of_inj p hmodifiers hmodifiers' (wireWord_inj p hsecond)]
    | resizeEvent cols rows hcols hrows =>
      have hcommand : FepControlCommand.keyEvent.toByte = FepControlCommand.resizeEvent.toByte :=
        command_of_expectedMessages h
      exact absurd hcommand (by decide)
  | resizeEvent cols rows hcols hrows =>
    cases hr' with
    | keyEvent keyval modifiers source hkeyval hmodifiers =>
      have hcommand : FepControlCommand.resizeEvent.toByte = FepControlCommand.keyEvent.toByte :=
        command_of_expectedMessages h
      exact absurd hcommand (by decide)
    | resizeEvent cols' rows' hcols' hrows' =>
      simp [expectedMessages, requestedMessages, requestEvent, tellFilter, ClientRequest.message,
        sentBack, expectedResponse] at h
      obtain ⟨hfirst, hsecond⟩ := h
      rw [uint32Of_inj p hcols hcols' (wireWord_inj p hfirst),
        uint32Of_inj p hrows hrows' (wireWord_inj p hsecond)]

/-! ## A request that was read -/

theorem readEventNumbers_none (p : Platform) {request : FepControlMessage} {a b : List UInt8}
    (ha : request.args[0]? = some a) (hb : request.args[1]? = some b)
    (hlen : ¬ (a.length = 4 ∧ b.length = 4)) : readEventNumbers p request = .ok none := by
  have hunread {arg : List UInt8} {index : Nat} (harg : request.args[index]? = some arg)
      (hne : arg.length ≠ 4) : controlMessageReadUint32Arg p request index = .ok none := by
    have hlt := (List.getElem?_eq_some_iff.mp harg).1
    rw [controlMessageReadUint32Arg_eq_map, controlMessageArg, if_neg (by omega), harg]
    simp [hne, Except.map]
  unfold readEventNumbers
  by_cases hlena : a.length = 4
  · rw [controlMessageReadUint32Arg_of_length p ha hlena, ok_bind, hunread hb fun h => hlen ⟨hlena, h⟩]
    rfl
  · rw [hunread ha hlena]
    rfl

/-- The answer to a request whose numbers cannot be read: a response without a value. -/
theorem dispatchRequest_unread (p : Platform) (filter : Option FepEventFilter)
    (rest : List (List UInt8)) {client : FepClient} (hidle : Idle client) {command : FepControlCommand}
    (hcommand : command = .keyEvent ∨ command = .resizeEvent) {a b : List UInt8}
    (hlen : ¬ (a.length = 4 ∧ b.length = 4)) :
    ∃ client', dispatchRequest p filter client ⟨command, a :: b :: rest⟩ = .ok (0, client') ∧
      Wrote p client client' [⟨.response, [[command.toByte], []]⟩] := by
  have hnumbers : readEventNumbers p ⟨command, a :: b :: rest⟩ = .ok none :=
    readEventNumbers_none p rfl rfl hlen
  have hhandler : ∃ handler, clientHandler p filter command = some handler ∧ ∀ client,
      handler client ⟨command, a :: b :: rest⟩ =
        .ok (⟨.response, [[command.toByte], []]⟩, client) := by
    rcases hcommand with rfl | rfl
    · refine ⟨_, rfl, fun client => ?_⟩
      unfold commandKeyEvent keyEvent
      rw [hnumbers]
      rfl
    · refine ⟨_, rfl, fun client => ?_⟩
      unfold commandResizeEvent resizeEvent
      rw [hnumbers]
      rfl
  obtain ⟨handler, hhandler, hrun⟩ := hhandler
  obtain ⟨client', hdispatch, -, hwrote⟩ :=
    dispatchRequest_of_handler p hhandler (hrun _) (holding_start hidle)
  exact ⟨client', hdispatch, hwrote⟩

/-- A request that the client has a handler for, as it is read: valid, or without its numbers. -/
theorem read_cases {request : FepControlMessage}
    (hlength : request.args.length = request.command.nArgs)
    (hcommand : request.command = .keyEvent ∨ request.command = .resizeEvent) :
    ValidRequest request ∨ ∃ a b rest, request = ⟨request.command, a :: b :: rest⟩ ∧
      ¬ (a.length = 4 ∧ b.length = 4) := by
  obtain ⟨command, args⟩ := request
  rcases hcommand with rfl | rfl
  · obtain ⟨a, b, c, rfl⟩ := List.length_eq_three.mp hlength
    by_cases hlen : a.length = 4 ∧ b.length = 4
    · exact Or.inl (.keyEvent a b c hlen.1 hlen.2)
    · exact Or.inr ⟨a, b, [c], rfl, hlen⟩
  · obtain ⟨a, b, rfl⟩ := List.length_eq_two.mp hlength
    by_cases hlen : a.length = 4 ∧ b.length = 4
    · exact Or.inl (.resizeEvent a b hlen.1 hlen.2)
    · exact Or.inr ⟨a, b, [], rfl, hlen⟩

theorem eq_of_wrote {p : Platform} {client client' client'' : FepClient}
    {messages messages' : List FepControlMessage} (h : Wrote p client client' messages)
    (h' : Wrote p client client'' messages') (heq : client' = client'') : messages = messages' := by
  subst heq
  exact List.append_cancel_left (h.written.symm.trans h'.written)

/-- **The request that was answered is the one that was read**, if the filter passes it on. -/
theorem read_of_answered {p : Platform} {client client' : FepClient} {fd fd' : Fd}
    {request : FepControlMessage} (hvalid : ValidRequest request) (hidle : Idle client)
    (hdispatch : fepClientDispatch p (some tellFilter) client fd = .ret (.ok (0, client')) fd')
    (hwrote : Wrote p client client' (expectedMessages p (some tellFilter) request)) :
    readControlMessage p fd = .ret (some request) fd' := by
  obtain ⟨read, fd₁, hread, h⟩ := Outcome.bind_eq_ret hdispatch
  obtain ⟨hok, rfl⟩ := Outcome.ret.inj h
  cases read with
  | none => exact absurd (congrArg Prod.fst (Except.ok.inj hok)) (by simp)
  | some read =>
    rw [Option.elim_some] at hok
    have hcommand : read.command = .keyEvent ∨ read.command = .resizeEvent := by
      by_contra hother
      obtain ⟨command, args⟩ := read
      cases command <;> first
        | exact hother (Or.inl rfl)
        | exact hother (Or.inr rfl)
        | exact absurd (congrArg Prod.fst (Except.ok.inj hok)) (by simp)
    rcases read_cases (length_args_of_read hread) hcommand with hreadValid | ⟨a, b, rest, heq, hlen⟩
    · obtain ⟨client'', hspec, -, hwrote'⟩ :=
        dispatchRequest_spec p (some tellFilter) hidle hreadValid
      have hsame := congrArg Prod.snd (Except.ok.inj (hok.symm.trans hspec))
      rw [hread, eq_of_expectedMessages p hreadValid hvalid (eq_of_wrote hwrote hwrote' hsame).symm]
    · obtain ⟨client'', hspec, hwrote'⟩ :=
        dispatchRequest_unread p (some tellFilter) rest hidle hcommand hlen
      rw [heq] at hok
      have hsame := congrArg Prod.snd (Except.ok.inj (hok.symm.trans hspec))
      -- the response has no value
      have hmessages := congrArg (·.head?) (eq_of_wrote hwrote hwrote' hsame)
      exact absurd hmessages (by simp [expectedMessages, expectedResponse, Platform.wireWord_eq])

/-! ## The requests that are answered -/

/-- Whatever its filters do and whatever its program requests in between, a client answers the requests one
after the other when all bytes of them can be read. -/
def Answered (p : Platform) (requests : List FepControlMessage) : Prop :=
  ∀ (ops : List ClientOp) (client : FepClient) (rest : List UInt8), Idle client →
    dispatches ops = requests.length → ∃ reads,
      AnswersEach p client ⟨wire p requests ++ rest, List.replicate reads .full⟩ ops requests

/-- The run in which each request is met by the filter that passes it on. -/
def tellRun (requests : List FepControlMessage) : List ClientOp :=
  requests.map fun _ => .dispatch (some tellFilter)

theorem dispatches_tellRun (requests : List FepControlMessage) :
    dispatches (tellRun requests) = requests.length := by
  induction requests with
  | nil => rfl
  | cons request requests ih => exact congrArg (· + 1) ih

/-- In that run each request is read as it was sent. -/
theorem readControlMessages_of_answersEach {p : Platform} {requests : List FepControlMessage}
    {client : FepClient} {fd : Fd} (hvalid : ∀ request ∈ requests, ValidRequest request)
    (hidle : Idle client) (h : AnswersEach p client fd (tellRun requests) requests) :
    ∃ fd', readControlMessages p requests.length fd = .ret (some requests) fd' := by
  induction requests generalizing client fd with
  | nil => exact ⟨fd, rfl⟩
  | cons request requests ih =>
    obtain ⟨hfirst, hrest⟩ := List.forall_mem_cons.mp hvalid
    obtain ⟨client', fd₁, hdispatch, hidle', hwrote, hanswers⟩ := h
    obtain ⟨fd', hreads⟩ := ih hrest hidle' hanswers
    refine ⟨fd', ?_⟩
    rw [List.length_cons, readControlMessages, read_of_answered hfirst hidle hdispatch hwrote]
    simp only [Outcome.bind, hreads, Option.map_some]

/-- **Which requests a client answers**: those with argument lengths that can be read back. -/
theorem answered_iff (p : Platform) (requests : List WireMessage)
    (hvalid : ∀ request ∈ requests, ValidRequest request.toFepControlMessage) :
    Answered p (requests.map (·.toFepControlMessage)) ↔
      ∀ request ∈ requests, ∀ arg ∈ request.args, p.LengthReadable arg.length := by
  have hvalid' : ∀ request ∈ requests.map (·.toFepControlMessage), ValidRequest request :=
    List.forall_mem_map.mpr hvalid
  constructor
  · intro h
    obtain ⟨reads, hanswers⟩ := h (tellRun _) (FepClient.new []) [] (idle_new []) (dispatches_tellRun _)
    obtain ⟨fd', hreads⟩ := readControlMessages_of_answersEach hvalid' (idle_new []) hanswers
    rw [List.length_map] at hreads
    have hreadable := readable_of_readControlMessages p (fun r hr => List.eq_of_mem_replicate hr) hreads
    exact fun request hrequest => hreadable _ (List.mem_map_of_mem hrequest)
  · intro h ops client rest hidle hcount
    have hreadable : Readable p (requests.map (·.toFepControlMessage)) := List.forall_mem_map.mpr h
    refine ⟨(requests.map (·.reads)).sum, ?_⟩
    have hreads := readSequence_wire p requests rest [] hreadable
    rw [List.append_nil] at hreads
    exact answersEach_of_reads p ops client _ _ _ hidle hvalid'
      (hreads.trans (by rw [List.map_map]; rfl)) hcount

/-- A key with a source of 128 bytes: ESC `[`, digits and a final byte. -/
def keyEvent128 : WireMessage where
  command := .keyEvent
  args := [[97, 0, 0, 0], [0, 0, 0, 0], 0x1B :: 0x5B :: List.replicate 125 0x31 ++ [0x41]]
  n_args_eq := rfl
  len_lt := by simp

def keyEventA : WireMessage where
  command := .keyEvent
  args := [[97, 0, 0, 0], [0, 0, 0, 0], [97]]
  n_args_eq := rfl
  len_lt := by simp

theorem validRequest_keyEventA : ValidRequest keyEventA.toFepControlMessage :=
  .keyEvent [97, 0, 0, 0] [0, 0, 0, 0] [97] rfl rfl

theorem readable_keyEventA : ∀ arg ∈ keyEventA.args, Platform.x86_64.LengthReadable arg.length := by
  have hread (n : Nat) (hn : n < 128) : Platform.x86_64.LengthReadable n :=
    { fits := by
        show n ≤ 8192
        omega
      unsigned := fun _ i hi => by
        rcases (by omega : i = 0 ∨ i = 1 ∨ i = 2) with rfl | rfl | rfl <;> simp [lengthByte] <;> omega
      palindrome := fun h => absurd h (by decide) }
  simp only [keyEventA, List.forall_mem_cons]
  exact ⟨hread 4 (by omega), hread 4 (by omega), hread 1 (by omega), List.forall_mem_nil _⟩

theorem answered_keyEventA : Answered .x86_64 [keyEventA.toFepControlMessage] :=
  (answered_iff .x86_64 [keyEventA] (List.forall_mem_singleton.mpr validRequest_keyEventA)).mpr
    (List.forall_mem_singleton.mpr readable_keyEventA)

/-- The client takes a length of 128 for `2 ^ 32 - 128`, and the dispatch never returns. -/
theorem not_answered_keyEvent128 :
    ValidRequest keyEvent128.toFepControlMessage ∧
      ¬ Answered .x86_64 [keyEvent128.toFepControlMessage] := by
  have hvalid : ValidRequest keyEvent128.toFepControlMessage := .keyEvent _ _ _ rfl rfl
  refine ⟨hvalid, fun h => ?_⟩
  obtain ⟨reads, hanswers⟩ := h (tellRun _) (FepClient.new []) [] (idle_new []) (dispatches_tellRun _)
  obtain ⟨fd', hreads⟩ := readControlMessages_of_answersEach (List.forall_mem_singleton.mpr hvalid)
    (idle_new []) hanswers
  have hreadable := @readable_of_readControlMessages .x86_64 [keyEvent128] _ _ _
    (fun r hr => List.eq_of_mem_replicate hr) hreads
  have hlength := hreadable keyEvent128.toFepControlMessage (by simp) _
    (List.mem_cons_of_mem _ (List.mem_cons_of_mem _ List.mem_cons_self))
  have hbyte := hlength.unsigned rfl 0 (by omega)
  simp [lengthByte] at hbyte

end LibFep
