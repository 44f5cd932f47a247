import LibFep.Control.Message
import LibFep.Input.KeyAssertion

/-!
# LibFep — a buffer from the terminal, key by key

The loop of `main_loop` in `fep/fep.c` over the bytes read from the terminal: every round decodes one
key, sends it to the clients with the bytes it was decoded from and passes these bytes on to the pty if
no client takes the key.

* **`decodeKey_cases`** — what a round decodes, and how many bytes of the buffer it takes.
* **`keyLoop_iff`** — the loop ends if every call of `_fep_transceive_control_message` returns, and then its
  rounds cover the buffer.
* **`keyLoop_sources_iff`** — the source strings that are sent, or written without clients.
-/

namespace LibFep

open Lib

/-! ## The loop -/

/-- `len` bytes from `buf + i` on, as `memcpy` and `write` read them. -/
def slice (buf : List UInt8) (i len : Nat) : Except Fault (List UInt8) :=
  if i + len ≤ buf.length then .ok ((buf.drop i).take len) else .error .badAccess

/-- A key read from the tty. -/
structure Key where
  keyval : BitVec 32
  state : BitVec 32
  source : List UInt8
  deriving DecidableEq, Repr

def buildKeyRequest (p : Platform) (key : Key) : Except Fault FepControlMessage := do
  let request := controlMessageAllocArgs .keyEvent 3
  let (_, request) ← controlMessageWriteUint32Arg p request 0 key.keyval
  let (_, request) ← controlMessageWriteUint32Arg p request 1 key.state
  let (_, request) ← controlMessageWriteStringArg request 2 key.source
  return request

def keyRequest (p : Platform) (key : Key) : FepControlMessage :=
  ⟨.keyEvent, [p.wireWord key.keyval, p.wireWord key.state, key.source]⟩

theorem buildKeyRequest_eq (p : Platform) (key : Key) :
    buildKeyRequest p key = .ok (keyRequest p key) := rfl

structure KeyRound where
  /-- `buf + i` and `endptr`. -/
  start : Nat
  stop : Nat
  /-- The message sent to the clients, if `is_key_read`. -/
  request : Option FepControlMessage
  /-- The bytes written to the pty, unless `is_key_handled`. -/
  written : Option (List UInt8)
  deriving DecidableEq, Repr

section

variable {σ : Type} (p : Platform) (strings : KeyStrings)
  -- what a call of `_fep_transceive_control_message` does to the server, and its return value: none if
  -- it waits for a response that never comes
  (transceive : σ → Int → FepControlMessage → Option (Int × σ))
  -- `fep->clients`
  (clients : List Int)
  (buf : List UInt8)

/-- The loop over the clients: whether one of them has handled the key. -/
def sendKey (request : FepControlMessage) : List Int → Bool → σ → Option (Bool × σ)
  | [], handled, s => some (handled, s)
  | fd :: clients, handled, s =>
    if fd < 0 then sendKey request clients handled s
    else do
      let (retval, s) ← transceive s fd request
      sendKey request clients (handled || retval = 0) s

/-- The result `none` says that the round does not end. -/
def keyRound (i : Nat) (s : σ) : Except Fault (Option (KeyRound × σ)) := do
  let (event, endptr) ← decodeKey p strings buf i
  let source ← slice buf i (endptr - i)
  match event with
  | some event =>
    let request ← buildKeyRequest p ⟨event.keyval, event.state, source⟩
    let some (handled, s) := sendKey transceive request clients false s | return none
    return some (⟨i, endptr, some request, if handled then none else some source⟩, s)
  | none => return some (⟨i, endptr, none, some source⟩, s)

/-- The rounds from `buf + i` on: `none` if one of them does not end, or if the fuel is too little. -/
def keyLoop : Nat → Nat → σ → Except Fault (Option (List KeyRound × σ))
  | 0, _, _ => .ok none
  | fuel + 1, i, s => do
    if buf.length ≤ i then return some ([], s)
    let some (round, s) ← keyRound p strings transceive clients buf i s | return none
    let some (rounds, s) ← keyLoop fuel round.stop s | return none
    return some (round :: rounds, s)

/-! ## The calls -/

/-- The keys of the bytes from `buf + i` on. -/
def keysFrom : Nat → Nat → Except Fault (List Key)
  | 0, _ => .ok []
  | fuel + 1, i => do
    if buf.length ≤ i then return []
    let (event, endptr) ← decodeKey p strings buf i
    let source ← slice buf i (endptr - i)
    let keys ← keysFrom fuel endptr
    return event.elim keys fun event => ⟨event.keyval, event.state, source⟩ :: keys

/-- The keys of a buffer. Each takes a byte at least. -/
def bufferKeys : Except Fault (List Key) := keysFrom p strings buf buf.length 0

/-- A key is sent to every client. -/
def callsFor (key : Key) : List (Int × FepControlMessage) :=
  (clients.filter (0 ≤ ·)).map (·, keyRequest p key)

/-- The server after calls of `_fep_transceive_control_message`, none if one of them does not return. -/
def afterCalls (s : σ) (calls : List (Int × FepControlMessage)) : Option σ :=
  calls.foldlM (fun s call => (transceive s call.1 call.2).map (·.2)) s

end

/-! ## A round -/

/-- Every byte is a key. -/
theorem exists_charToKey (tty : UInt8) : ∃ event, charToKey tty = some event := by
  have hall : ∀ b : BitVec 8, (charToKey ⟨b⟩).isSome = true := by decide
  exact Option.isSome_iff_exists.mp (hall tty.toBitVec)

theorem getStateFromCursor_error {p : Platform} {csi : FepCSI} {fault : Fault}
    (h : getStateFromCursor p csi = .error fault) : fault = .assertion := by
  unfold getStateFromCursor at h
  split at h
  · simp only at h
    split at h
    · exact absurd h (by simp)
    · exact (Except.error.inj h).symm
  · exact absurd h (by simp)

theorem csiToCursorKey_error {p : Platform} {csi : FepCSI} {fault : Fault}
    (h : csiToCursorKey p csi = .error fault) : fault = .assertion := by
  unfold csiToCursorKey at h
  split at h
  · cases hstate : getStateFromCursor p csi with
    | error fault' =>
      rw [hstate] at h
      obtain rfl : fault' = fault := Except.error.inj h
      exact getStateFromCursor_error hstate
    | ok state =>
      rw [hstate] at h
      exact absurd h (by simp [bind, Except.bind, pure, Except.pure])
  · exact absurd h (by simp [pure, Except.pure])

theorem csiToKey_error {p : Platform} {strings : KeyStrings} {csi : FepCSI} {fault : Fault}
    (h : csiToKey p strings csi = .error fault) : fault = .assertion := by
  cases hfinal : isSs3Final csi.final with
  | false =>
    rw [csiToKey_of_not p strings hfinal] at h
    exact absurd h (by simp)
  | true =>
    rw [csiToKey_of_cursor p strings hfinal] at h
    exact csiToCursorKey_error h

/-- The assertion is all that can fail. -/
theorem keyOfSequence_error {p : Platform} {strings : KeyStrings} {introducer : UInt8} {csi : FepCSI}
    {fault : Fault} (h : keyOfSequence p strings introducer csi = .error fault) :
    fault = .assertion := by
  unfold keyOfSequence at h
  split at h
  · split at h
    · exact csiToCursorKey_error h
    · exact absurd h (by simp)
  · split at h
    · split at h
      · exact csiToCursorKey_error h
      · exact absurd h (by simp)
    · exact csiToKey_error h

/-- A key of several bytes ends in the string that is parsed. -/
theorem escToKey_cases (p : Platform) (strings : KeyStrings) (str : List UInt8) :
    escToKey p strings str = .error .assertion ∨ escToKey p strings str = .ok none ∨
      ∃ event n, escToKey p strings str = .ok (some (event, n)) ∧ 3 ≤ n ∧ n ≤ str.length := by
  rcases parse_cases str with ⟨introducer, hmem, csi, n, hparse⟩ | hnone
  · rw [escToKey_of_parse hmem hparse]
    cases hkey : keyOfSequence p strings introducer csi with
    | error fault =>
      obtain rfl := keyOfSequence_error hkey
      exact Or.inl rfl
    | ok event? =>
      cases event? with
      | none => exact Or.inr (Or.inl rfl)
      | some event =>
        obtain ⟨-, rfl, t, rfl⟩ := csiParse_eq_some_iff.mp hparse
        refine Or.inr (Or.inr ⟨event, _, rfl, ?_, ?_⟩)
        · simp only [FepCSI.length]
          omega
        · simp only [FepCSI.length, List.length_cons, List.length_append]
          omega
  · exact Or.inr (Or.inl (escToKey_of_none hnone))

variable {p : Platform} {strings : KeyStrings} {buf : List UInt8}

/-- **What a round decodes**: a key and some of the bytes that are left, if the assertion holds. -/
theorem decodeKey_cases {i : Nat} (hi : i < buf.length) :
    decodeKey p strings buf i = .error .assertion ∨
      ∃ event stop, decodeKey p strings buf i = .ok (some event, stop) ∧ i < stop ∧
        stop ≤ buf.length := by
  have hlen : (buf.drop i).length = buf.length - i := List.length_drop
  unfold decodeKey
  rcases escToKey_cases p strings (buf.drop i) with hkey | hkey | ⟨event, n, hkey, hge, hle⟩
  · left
    rw [hkey]
    rfl
  · right
    obtain ⟨event, hevent⟩ := exists_charToKey buf[i]
    refine ⟨event, i + 1, ?_, Nat.lt_succ_self i, hi⟩
    have hbyte : byteAt buf i = .ok buf[i] := by
      rw [byteAt, List.getElem?_eq_getElem hi]
    rw [hkey, ok_bind, hbyte]
    show Except.ok (charToKey buf[i], i + 1) = _
    rw [hevent]
  · right
    refine ⟨event, i + n, ?_, by omega, by omega⟩
    rw [hkey]
    rfl

/-- The round that starts at `i`, whatever the clients make of it. -/
structure RoundAt (p : Platform) (clients : List Int) (buf : List UInt8) (i : Nat)
    (round : KeyRound) : Prop where
  start_eq : round.start = i
  progress : i < round.stop
  inside : round.stop ≤ buf.length
  attached : ∃ event : KeyEvent, round.request = some (keyRequest p
    ⟨event.keyval, event.state, (buf.drop i).take (round.stop - i)⟩)
  written : (∀ fd ∈ clients, fd < 0) → round.written = some ((buf.drop i).take (round.stop - i))

variable {σ : Type} (transceive : σ → Int → FepControlMessage → Option (Int × σ))
  (clients : List Int)

theorem afterCalls_append (s : σ) (calls calls' : List (Int × FepControlMessage)) :
    afterCalls transceive s (calls ++ calls') =
      (afterCalls transceive s calls).bind (afterCalls transceive · calls') := List.foldlM_append

/-- The loop over the clients makes the calls of the key. -/
theorem map_sendKey (request : FepControlMessage) (handled : Bool) (s : σ) :
    (sendKey transceive request clients handled s).map (·.2) =
      afterCalls transceive s ((clients.filter (0 ≤ ·)).map (·, request)) := by
  induction clients generalizing handled s with
  | nil => rfl
  | cons fd clients ih =>
    rw [sendKey]
    split
    · next hneg => rw [ih, List.filter_cons_of_neg (by simpa using hneg)]
    · next hfd =>
      rw [List.filter_cons_of_pos (by simpa using hfd), List.map_cons]
      -- the call to this client
      cases hcall : transceive s fd request with
      | none => simp [afterCalls, hcall]
      | some r =>
        show (sendKey transceive request clients (handled || r.1 = 0) r.2).map (·.2) = _
        rw [ih]
        simp [afterCalls, hcall]

theorem sendKey_of_none (h : ∀ fd ∈ clients, fd < 0) (request : FepControlMessage) (s : σ) :
    sendKey transceive request clients false s = some (false, s) := by
  induction clients with
  | nil => rfl
  | cons fd clients ih =>
    obtain ⟨hfd, hclients⟩ := List.forall_mem_cons.mp h
    rw [sendKey, if_pos hfd]
    exact ih hclients

theorem slice_of_le {buf : List UInt8} {i stop : Nat} (hlt : i < stop) (hle : stop ≤ buf.length) :
    slice buf i (stop - i) = .ok ((buf.drop i).take (stop - i)) := if_pos (by omega)

/-- The key that is sent in a round. -/
def KeyEvent.key (event : KeyEvent) (buf : List UInt8) (i stop : Nat) : Key :=
  ⟨event.keyval, event.state, (buf.drop i).take (stop - i)⟩

theorem keyRound_cases {i stop : Nat} {event : KeyEvent}
    (hkey : decodeKey p strings buf i = .ok (some event, stop)) (hlt : i < stop)
    (hle : stop ≤ buf.length) (s : σ) :
    (afterCalls transceive s (callsFor p clients (event.key buf i stop)) = none ∧
        keyRound p strings transceive clients buf i s = .ok none) ∨
      ∃ round s', afterCalls transceive s (callsFor p clients (event.key buf i stop)) = some s' ∧
        keyRound p strings transceive clients buf i s = .ok (some (round, s')) ∧
          RoundAt p clients buf i round ∧ round.stop = stop := by
  have hcalls := map_sendKey transceive clients (keyRequest p (event.key buf i stop)) false s
  unfold keyRound callsFor
  rw [hkey, ok_bind]
  simp only [slice_of_le hlt hle, ok_bind, buildKeyRequest_eq]
  rw [← hcalls]
  -- whether all clients have answered
  cases hsend : sendKey transceive (keyRequest p (event.key buf i stop)) clients false s with
  | none =>
    left
    rw [KeyEvent.key] at hsend
    rw [hsend]
    exact ⟨rfl, rfl⟩
  | some r =>
    right
    rw [KeyEvent.key] at hsend
    rw [hsend]
    refine ⟨_, r.2, rfl, rfl, ⟨rfl, hlt, hle, ⟨event, rfl⟩, ?_⟩, rfl⟩
    intro hclients
    rw [sendKey_of_none transceive clients hclients] at hsend
    rw [← Option.some.inj hsend]
    rfl

/-- The keys from `buf + i` on, one round at a time. -/
theorem keysFrom_cons {fuel i stop : Nat} {event : KeyEvent} {keys : List Key}
    (hkey : decodeKey p strings buf i = .ok (some event, stop)) (hlt : i < stop)
    (hle : stop ≤ buf.length) (hkeys : keysFrom p strings buf (fuel + 1) i = .ok keys) :
    ∃ rest, keysFrom p strings buf fuel stop = .ok rest ∧ keys = event.key buf i stop :: rest := by
  rw [keysFrom, if_neg (by omega), hkey, ok_bind] at hkeys
  simp only [slice_of_le hlt hle, ok_bind] at hkeys
  obtain ⟨rest, hrest, hkeys⟩ := bind_eq_ok.mp hkeys
  exact ⟨rest, hrest, (Except.ok.inj hkeys).symm⟩

/-! ## The buffer -/

/-- What the rounds of a loop make of the bytes from `buf + i` on. -/
structure CoversBuffer (p : Platform) (clients : List Int) (buf : List UInt8) (i : Nat)
    (rounds : List KeyRound) : Prop where
  each : ∀ round ∈ rounds, RoundAt p clients buf round.start round
  joined : (rounds.map fun round => (buf.drop round.start).take (round.stop - round.start)).flatten =
    buf.drop i

/-- One round more in front. -/
theorem CoversBuffer.cons {i : Nat} {round : KeyRound} {rounds : List KeyRound}
    (hround : RoundAt p clients buf i round) (h : CoversBuffer p clients buf round.stop rounds) :
    CoversBuffer p clients buf i (round :: rounds) := by
  have hstart := hround.start_eq
  subst hstart
  refine ⟨List.forall_mem_cons.mpr ⟨hround, h.each⟩, ?_⟩
  have hnext : round.start + (round.stop - round.start) = round.stop := by
    have := hround.progress
    omega
  rw [List.map_cons, List.flatten_cons, h.joined, ← hnext, ← List.drop_drop, hnext,
    List.take_append_drop]

/-- **The loop ends if all calls return**, and its rounds cover the buffer. Induction on the fuel: every
round takes a byte at least. -/
theorem keyLoop_iff {fuel m i : Nat} (hfuel : buf.length - i < fuel) (hm : buf.length - i ≤ m)
    {keys : List Key} (hkeys : keysFrom p strings buf m i = .ok keys) (s : σ) :
    (afterCalls transceive s (keys.flatMap (callsFor p clients)) = none ∧
        keyLoop p strings transceive clients buf fuel i s = .ok none) ∨
      ∃ rounds s', afterCalls transceive s (keys.flatMap (callsFor p clients)) = some s' ∧
        keyLoop p strings transceive clients buf fuel i s = .ok (some (rounds, s')) ∧
          CoversBuffer p clients buf i rounds := by
  induction fuel generalizing m i keys s with
  | zero => exact absurd hfuel (Nat.not_lt_zero _)
  | succ fuel ih =>
    unfold keyLoop
    by_cases hi : buf.length ≤ i
    · have hnil : keys = [] := by
        cases m with
        | zero => exact (Except.ok.inj hkeys).symm
        | succ m =>
          rw [keysFrom, if_pos hi] at hkeys
          exact (Except.ok.inj hkeys).symm
      subst hnil
      right
      rw [if_pos hi]
      refine ⟨[], s, rfl, rfl, by simp, ?_⟩
      rw [List.drop_eq_nil_of_le hi]
      rfl
    · obtain ⟨m, rfl⟩ := Nat.exists_eq_succ_of_ne_zero (show m ≠ 0 by omega)
      rw [if_neg hi]
      rcases @decodeKey_cases p strings buf i (by omega) with hkey | ⟨event, stop, hkey, hlt, hle⟩
      · -- the assertion fails on this buffer
        rw [Nat.succ_eq_add_one, keysFrom, if_neg hi, hkey] at hkeys
        exact absurd hkeys (by simp [bind, Except.bind])
      obtain ⟨rest, hrest, rfl⟩ := keysFrom_cons hkey hlt hle hkeys
      rw [List.flatMap_cons, afterCalls_append]
      rcases keyRound_cases transceive clients hkey hlt hle s with
        ⟨hcalls, hround⟩ | ⟨round, s', hcalls, hround, hat, rfl⟩
      · left
        rw [hcalls, hround]
        exact ⟨rfl, rfl⟩
      · rw [hcalls, hround, Option.bind_some, ok_bind]
        rcases ih (by omega) (by omega) hrest s' with
          ⟨hnone, hloop⟩ | ⟨rounds, s'', hsome, hloop, hcovers⟩
        · left
          simp only [hloop]
          exact ⟨hnone, rfl⟩
        · right
          simp only [hloop]
          exact ⟨round :: rounds, s'', hsome, rfl, hcovers.cons clients hat⟩

/-! ## The sources -/

/-- The source string of the message sent for a round. -/
def KeyRound.source? (round : KeyRound) : Option (List UInt8) :=
  round.request.bind (·.args[2]?)

/-- The source strings of a loop over `buf`. -/
structure KeySources (clients : List Int) (buf : List UInt8) (rounds : List KeyRound)
    (sources : List (List UInt8)) : Prop where
  attached : rounds.map KeyRound.source? = sources.map some
  written : (∀ fd ∈ clients, fd < 0) → rounds.map (·.written) = sources.map some
  inside : ∀ round ∈ rounds, round.stop ≤ buf.length ∧
    round.source? = some ((buf.drop round.start).take (round.stop - round.start))
  nonempty : ∀ source ∈ sources, source ≠ []
  joined : sources.flatten = buf

theorem RoundAt.source?_eq {i : Nat} {round : KeyRound} (h : RoundAt p clients buf i round) :
    round.source? = some ((buf.drop i).take (round.stop - i)) := by
  obtain ⟨event, hrequest⟩ := h.attached
  rw [KeyRound.source?, hrequest]
  rfl

theorem RoundAt.ne_nil {i : Nat} {round : KeyRound} (h : RoundAt p clients buf i round) :
    (buf.drop i).take (round.stop - i) ≠ [] := by
  have hprogress := h.progress
  have hinside := h.inside
  apply List.ne_nil_of_length_pos
  rw [List.length_take, List.length_drop]
  omega

theorem CoversBuffer.sources {rounds : List KeyRound} (h : CoversBuffer p clients buf 0 rounds) :
    KeySources clients buf rounds
      (rounds.map fun round => (buf.drop round.start).take (round.stop - round.start)) := by
  refine ⟨?_, ?_, ?_, ?_, h.joined⟩
  · rw [List.map_map]
    exact List.map_congr_left fun round hround => (h.each round hround).source?_eq clients
  · intro hclients
    rw [List.map_map]
    exact List.map_congr_left fun round hround => (h.each round hround).written hclients
  · intro round hround
    exact ⟨(h.each round hround).inside, (h.each round hround).source?_eq clients⟩
  · intro source hsource
    obtain ⟨round, hround, rfl⟩ := List.mem_map.mp hsource
    exact (h.each round hround).ne_nil clients

/-- The loop over the buffer ends, and the source strings of its keys, which are also what is written
without clients, make up the buffer. -/
def EndsWithSources (p : Platform) (strings : KeyStrings) (buf : List UInt8) (fuel : Nat) (s : σ) :
    Prop :=
  ∃ rounds s' sources, keyLoop p strings transceive clients buf fuel 0 s = .ok (some (rounds, s')) ∧
    KeySources clients buf rounds sources

/-- **The loop over a buffer on which no assertion fails ends**, with the bytes of the buffer in the sources
of its keys, if and only if every call of `_fep_transceive_control_message` returns that it makes: one for
each key of the buffer and each client. -/
theorem keyLoop_sources_iff {fuel : Nat} (hfuel : buf.length < fuel) {keys : List Key}
    (hkeys : bufferKeys p strings buf = .ok keys) (s : σ) :
    EndsWithSources transceive clients p strings buf fuel s ↔
      (afterCalls transceive s (keys.flatMap (callsFor p clients))).isSome = true := by
  rcases keyLoop_iff (i := 0) transceive clients hfuel (Nat.le_refl _) hkeys s with
    ⟨hnone, hloop⟩ | ⟨rounds, s', hsome, hloop, hcovers⟩
  · rw [hnone]
    refine iff_of_false ?_ (by simp)
    rintro ⟨rounds, s', sources, hends, -⟩
    exact absurd (hloop.symm.trans hends) (by simp)
  · rw [hsome]
    exact iff_of_true ⟨rounds, s', _, hloop, hcovers.sources⟩ rfl

/-- A letter, a sequence that is cut off and a byte with the high bit. -/
def cutBuffer : List UInt8 := [0x61, escape, 0x5B, 0x31, 0x80]

/-- A client that answers every key: the number of its answers. -/
def answering (answers : Nat) (_ : Int) (_ : FepControlMessage) : Option (Int × Nat) :=
  some (0, answers + 1)

theorem keyLoop_sources_cut : EndsWithSources answering [5] .x86_64 (fun _ => none) cutBuffer 6 0 := by
  obtain ⟨keys, hkeys, hlength⟩ : ∃ keys, bufferKeys .x86_64 (fun _ => none) cutBuffer = .ok keys ∧
      keys.length = 5 := ⟨_, rfl, rfl⟩
  have hanswered (calls : List (Int × FepControlMessage)) (answers : Nat) :
      (afterCalls answering answers calls).isSome = true := by
    induction calls generalizing answers with
    | nil => rfl
    | cons call calls ih => exact ih (answers + 1)
  exact (keyLoop_sources_iff answering [5] (by decide) hkeys 0).mpr (hanswered _ 0)

/-- A client that is connected and never answers. -/
def silent (_ : Unit) (_ : Int) (_ : FepControlMessage) : Option (Int × Unit) := none

/-- No assertion fails on the letter `a`, but the loop over it does not end. -/
theorem not_keyLoop_ends_silent :
    (∃ keys, bufferKeys .x86_64 (fun _ => none) [0x61] = .ok keys) ∧
      ∀ fuel, ¬ EndsWithSources silent [5] .x86_64 (fun _ => none) [0x61] fuel () := by
  refine ⟨⟨_, rfl⟩, ?_⟩
  rintro fuel ⟨rounds, s', sources, hends, -⟩
  cases fuel with
  | zero => exact absurd hends (by simp [keyLoop])
  | succ fuel => exact absurd hends (by simp [show keyLoop .x86_64 (fun _ => none) silent [5] [0x61]
      (fuel + 1) 0 () = .ok none from rfl])

end LibFep
