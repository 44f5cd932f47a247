import LibFep.Lib.Runs
import LibFep.Server.Handlers
import LibFep.Term.PtyOutput

/-!
# LibFep — partial writes of the server

What the server delivers to the pty and to the terminal, on file descriptors that may accept less than
they are given. `command_send_data` and `_fep_output_send_text` write in a loop; a key goes to the pty,
and the child's output to the terminal, in one call whose result nobody looks at.

* **`writeLoop_eq`**, **`writeOnce_eq_iff`** — a loop loses nothing; one call loses what it does not
  accept.
* **`complete_iff`** — the runs in which nothing is lost.
-/

namespace LibFep

open Lib

/-! ## Two ways to write -/

/-- `while (total < length)`, until a call fails: the bytes accepted, and the results that are left. -/
def writeLoop : List WriteResult → List UInt8 → List UInt8 × List WriteResult
  | results, [] => ([], results)
  | [], bytes => (bytes, [])
  | .error :: results, _ :: _ => ([], results)
  | .full :: results, bytes => (bytes, results)
  | .short k :: results, bytes =>
    let rest := writeLoop results (bytes.drop (k + 1))
    (bytes.take (k + 1) ++ rest.1, rest.2)

/-- A single call of `write`. -/
def writeOnce (results : List WriteResult) (bytes : List UInt8) : List UInt8 × List WriteResult :=
  ((write results bytes).1.getD [], (write results bytes).2)

/-! ## The functions that deliver -/

def commandSendDataOn (results : List WriteResult) (request : FepControlMessage) :
    List UInt8 × List WriteResult :=
  writeLoop results (request.args.headD [])

/-- `_fep_output_send_text`, with the text that `str_iconv` gives. -/
def outputSendTextOn (e : Setting) (results : List WriteResult) (text : List UInt8) :
    List UInt8 × List WriteResult :=
  match e.locale.strIconv (cBytes text) with
  | none => ([], results)
  | some local' => writeLoop results (cBytes local')

def commandSendTextOn (e : Setting) (results : List WriteResult) (request : FepControlMessage) :
    List UInt8 × List WriteResult :=
  outputSendTextOn e results (request.args.headD [])

def commandForwardKeyEventOn (e : Setting) (results : List WriteResult)
    (request : FepControlMessage) : List UInt8 × List WriteResult :=
  match commandForwardKeyEvent e request with
  -- `_fep_key_to_string` returns `NULL`, or an argument cannot be read
  | [] => ([], results)
  | data :: _ => writeOnce results data

/-- `_fep_dispatch_control_message`, as far as the pty is concerned. -/
def dispatchControlMessageOn (e : Setting) (results : List WriteResult)
    (message : FepControlMessage) : List UInt8 × List WriteResult :=
  match message.command with
  | .sendText => commandSendTextOn e results message
  | .sendData => commandSendDataOn results message
  | .forwardKeyEvent => commandForwardKeyEventOn e results message
  | .setCursorText | .setStatusText => ([], results)
  | .keyEvent | .resizeEvent | .response => ([], results)

/-- The `write` of `_fep_output_string_from_pty`. -/
def outputStringFromPtyOn (results : List WriteResult) (str : List UInt8) (strLen : Int) :
    List UInt8 × List WriteResult :=
  if 0 < strLen then writeOnce results (window str 0 strLen.toNat) else ([], results)

/-! ## Runs -/

inductive Delivery where
  /-- A message from a client. -/
  | request (message : FepControlMessage)
  /-- A key that no client has handled. -/
  | unhandledKey (bytes : List UInt8)
  /-- A chunk of the child's output. -/
  | childOutput (bytes : List UInt8)

/-- The bytes that are to be delivered. -/
def Delivery.bytes (e : Setting) : Delivery → List UInt8
  | .request message => (ptyOutput e message).flatten
  | .unhandledKey bytes => bytes
  | .childOutput bytes => bytes

/-- What is accepted of a delivery, and the results that are left. -/
def Delivery.written (e : Setting) (results : List WriteResult) :
    Delivery → List UInt8 × List WriteResult
  | .request message => dispatchControlMessageOn e results message
  | .unhandledKey bytes => writeOnce results bytes
  | .childOutput bytes => outputStringFromPtyOn results bytes bytes.length

/-- The bytes that a destination was to get, in order, and those it has accepted. -/
structure Destination where
  asked : List UInt8
  accepted : List UInt8
  deriving DecidableEq, Repr

def Destination.add (d : Destination) (asked accepted : List UInt8) : Destination :=
  ⟨d.asked ++ asked, d.accepted ++ accepted⟩

structure Destinations where
  pty : Destination
  tty : Destination
  /-- The results of the next calls of `write`. -/
  results : List WriteResult
  deriving DecidableEq, Repr

def Destinations.start (results : List WriteResult) : Destinations := ⟨⟨[], []⟩, ⟨[], []⟩, results⟩

def deliver (e : Setting) (s : Destinations) (d : Delivery) : Destinations :=
  let accepted := (d.written e s.results).1
  let left := (d.written e s.results).2
  match d with
  | .request _ | .unhandledKey _ => { s with pty := s.pty.add (d.bytes e) accepted, results := left }
  | .childOutput _ => { s with tty := s.tty.add (d.bytes e) accepted, results := left }

/-- Both destinations have got what they were to get, once and in order. -/
def Destinations.Complete (s : Destinations) : Prop :=
  s.pty.accepted = s.pty.asked ∧ s.tty.accepted = s.tty.asked

/-! ## The bytes that are accepted -/

/-- None of the calls fails. -/
def NoFailure (results : List WriteResult) : Prop := ∀ r ∈ results, r ≠ .error

/-- The next call accepts all of the bytes. -/
def AcceptsAll (results : List WriteResult) (bytes : List UInt8) : Prop :=
  ∀ k rest, results = .short k :: rest → bytes.length ≤ k + 1

theorem NoFailure.suffix {results left : List WriteResult} (h : NoFailure results)
    (hleft : left <:+ results) : NoFailure left := fun r hr => h r (hleft.subset hr)

/-- **A loop writes everything**, however little each call accepts. -/
theorem writeLoop_eq {results : List WriteResult} (h : NoFailure results) (bytes : List UInt8) :
    (writeLoop results bytes).1 = bytes ∧ (writeLoop results bytes).2 <:+ results := by
  induction results generalizing bytes with
  | nil => cases bytes <;> exact ⟨rfl, List.suffix_refl _⟩
  | cons r results ih =>
    cases bytes with
    | nil => exact ⟨rfl, List.suffix_refl _⟩
    | cons byte bytes =>
      cases r with
      | error => exact absurd rfl (h .error List.mem_cons_self)
      | full => exact ⟨rfl, List.suffix_cons _ _⟩
      | short k =>
        obtain ⟨hrest, hleft⟩ := ih (h.suffix (List.suffix_cons _ _)) ((byte :: bytes).drop (k + 1))
        rw [writeLoop]
        · dsimp only
          rw [hrest, List.take_append_drop]
          exact ⟨rfl, hleft.trans (List.suffix_cons _ _)⟩
        · simp

/-- **One call writes everything** exactly if it accepts everything. -/
theorem writeOnce_eq_iff {results : List WriteResult} (h : NoFailure results)
    (bytes : List UInt8) :
    ((writeOnce results bytes).1 = bytes ↔ AcceptsAll results bytes) ∧
      (writeOnce results bytes).2 <:+ results := by
  cases results with
  | nil => exact ⟨iff_of_true rfl (by simp [AcceptsAll]), List.suffix_refl _⟩
  | cons r results =>
    cases r with
    | error => exact absurd rfl (h .error List.mem_cons_self)
    | full => exact ⟨iff_of_true rfl (by simp [AcceptsAll]), List.suffix_cons _ _⟩
    | short k =>
      refine ⟨?_, List.suffix_cons _ _⟩
      show bytes.take (k + 1) = bytes ↔ _
      constructor
      · rintro heq k' rest hresults
        obtain ⟨hr, -⟩ := List.cons.inj hresults
        rw [← WriteResult.short.inj hr, ← heq]
        exact List.length_take_le _ _
      · intro haccepts
        exact List.take_of_length_le (haccepts k results rfl)

/-! ## Deliveries -/

/-- The delivery is made in one call. -/
def Delivery.OneCall : Delivery → Prop
  | .request message => message.command = .forwardKeyEvent
  | .unhandledKey _ | .childOutput _ => True

/-- A delivery that is made in one call: the call accepts all of it. -/
def AcceptsDelivery (e : Setting) (s : Destinations) (d : Delivery) : Prop :=
  d.OneCall → AcceptsAll s.results (d.bytes e)

/-- What a way to deliver `bytes` gets through: everything, if and only if `cond` holds. -/
structure GetsThrough (results : List WriteResult) (bytes : List UInt8) (cond : Prop)
    (written : List UInt8 × List WriteResult) : Prop where
  eq_iff : written.1 = bytes ↔ cond
  suffix : written.2 <:+ results

theorem getsThrough_nothing (results : List WriteResult) {cond : Prop} (hcond : cond) :
    GetsThrough results [] cond ([], results) :=
  ⟨iff_of_true rfl hcond, List.suffix_refl _⟩

theorem acceptsAll_nil (results : List WriteResult) : AcceptsAll results [] :=
  fun k _ _ => Nat.zero_le (k + 1)

theorem outputStringFromPtyOn_getsThrough {results : List WriteResult} (h : NoFailure results)
    (bytes : List UInt8) :
    GetsThrough results bytes (AcceptsAll results bytes)
      (outputStringFromPtyOn results bytes bytes.length) := by
  unfold outputStringFromPtyOn
  split
  · rw [Int.toNat_natCast, window_take (Nat.le_refl _), List.take_length]
    obtain ⟨hiff, hleft⟩ := writeOnce_eq_iff h bytes
    exact ⟨hiff, hleft⟩
  · next hlen =>
    obtain rfl : bytes = [] := List.length_eq_zero_iff.mp (by omega)
    exact getsThrough_nothing results (acceptsAll_nil results)

theorem commandForwardKeyEventOn_getsThrough (e : Setting) {results : List WriteResult}
    (h : NoFailure results) (request : FepControlMessage) :
    GetsThrough results (commandForwardKeyEvent e request).flatten
      (AcceptsAll results (commandForwardKeyEvent e request).flatten)
      (commandForwardKeyEventOn e results request) := by
  -- the key is one piece, or there is none
  have hpieces : commandForwardKeyEvent e request = [] ∨
      ∃ data, commandForwardKeyEvent e request = [data] := by
    unfold commandForwardKeyEvent
    split
    · unfold outputKey
      split
      · exact Or.inl rfl
      · exact Or.inr ⟨_, rfl⟩
    · exact Or.inl rfl
  unfold commandForwardKeyEventOn
  rcases hpieces with hnone | ⟨data, hdata⟩
  · rw [hnone]
    exact getsThrough_nothing results (acceptsAll_nil results)
  · rw [hdata, List.flatten_singleton]
    obtain ⟨hiff, hleft⟩ := writeOnce_eq_iff h data
    exact ⟨hiff, hleft⟩

theorem writeLoop_getsThrough {results : List WriteResult} (h : NoFailure results)
    (bytes : List UInt8) {cond : Prop} (hcond : cond) :
    GetsThrough results bytes cond (writeLoop results bytes) := by
  obtain ⟨hbytes, hleft⟩ := writeLoop_eq h bytes
  exact ⟨iff_of_true hbytes hcond, hleft⟩

theorem commandSendTextOn_getsThrough (e : Setting) {results : List WriteResult}
    (h : NoFailure results) (request : FepControlMessage) {cond : Prop} (hcond : cond) :
    GetsThrough results (commandSendText e request).flatten cond
      (commandSendTextOn e results request) := by
  unfold commandSendText outputSendText commandSendTextOn outputSendTextOn
  cases e.locale.strIconv (cBytes (request.args.headD [])) with
  | none => exact getsThrough_nothing results hcond
  | some local' =>
    rw [Option.map_some, Option.toList_some, List.flatten_singleton]
    exact writeLoop_getsThrough h _ hcond

/-- **What a delivery gets through**: everything, unless it is made in one call that does not accept
everything. One case for each path. -/
theorem written_getsThrough (e : Setting) {results : List WriteResult} (h : NoFailure results)
    (d : Delivery) :
    GetsThrough results (d.bytes e) (d.OneCall → AcceptsAll results (d.bytes e))
      (d.written e results) := by
  cases d with
  | childOutput bytes =>
    have hout := outputStringFromPtyOn_getsThrough h bytes
    exact ⟨hout.eq_iff.trans (by simp [Delivery.OneCall, Delivery.bytes]), hout.suffix⟩
  | unhandledKey bytes =>
    obtain ⟨hiff, hleft⟩ := writeOnce_eq_iff h bytes
    exact ⟨hiff.trans (by simp [Delivery.OneCall, Delivery.bytes]), hleft⟩
  | request message =>
    obtain ⟨command, args⟩ := message
    have hother (hne : command ≠ .forwardKeyEvent) :
        Delivery.OneCall (.request ⟨command, args⟩) →
          AcceptsAll results (Delivery.bytes e (.request ⟨command, args⟩)) :=
      fun hone => absurd hone hne
    cases command with
    | forwardKeyEvent =>
      have hkey := commandForwardKeyEventOn_getsThrough e h ⟨.forwardKeyEvent, args⟩
      exact ⟨hkey.eq_iff.trans (by simp [Delivery.OneCall, Delivery.bytes, ptyOutput]), hkey.suffix⟩
    | sendText => exact commandSendTextOn_getsThrough e h _ (hother (by simp))
    | sendData =>
      have hbytes : Delivery.bytes e (.request ⟨.sendData, args⟩) = args.headD [] :=
        List.flatten_singleton
      have hloop := writeLoop_getsThrough h (args.headD []) (hother (by simp))
      rw [hbytes] at hloop ⊢
      exact hloop
    | setCursorText => exact getsThrough_nothing results (hother (by simp))
    | setStatusText => exact getsThrough_nothing results (hother (by simp))
    | keyEvent => exact getsThrough_nothing results (hother (by simp))
    | resizeEvent => exact getsThrough_nothing results (hother (by simp))
    | response => exact getsThrough_nothing results (hother (by simp))

/-! ## Runs that lose nothing -/

/-- **One delivery**: nothing is lost exactly if the call accepts everything, where there is one call. -/
theorem deliver_complete_iff (e : Setting) {s : Destinations} (hs : s.Complete)
    (h : NoFailure s.results) (d : Delivery) :
    (deliver e s d).Complete ↔ AcceptsDelivery e s d := by
  have hall : (d.written e s.results).1 = d.bytes e ↔ AcceptsDelivery e s d :=
    (written_getsThrough e h d).eq_iff
  obtain ⟨hpty, htty⟩ := hs
  rw [← hall]
  cases d with
  | request message =>
    show s.pty.accepted ++ _ = s.pty.asked ++ _ ∧ s.tty.accepted = s.tty.asked ↔ _
    rw [hpty, List.append_cancel_left_eq]
    simp [htty]
  | unhandledKey bytes =>
    show s.pty.accepted ++ _ = s.pty.asked ++ _ ∧ s.tty.accepted = s.tty.asked ↔ _
    rw [hpty, List.append_cancel_left_eq]
    simp [htty]
  | childOutput bytes =>
    show s.pty.accepted = s.pty.asked ∧ s.tty.accepted ++ _ = s.tty.asked ++ _ ↔ _
    rw [htty, List.append_cancel_left_eq]
    simp [hpty]

theorem deliver_results (e : Setting) (s : Destinations) (d : Delivery) :
    (deliver e s d).results = (d.written e s.results).2 := by
  cases d <;> rfl

/-- No call fails in any state of a run on a schedule without failures. -/
theorem noFailure_of_mem_transitions (e : Setting) {s : Destinations} (h : NoFailure s.results)
    {ds : List Delivery} : ∀ x ∈ transitions (deliver e) s ds, NoFailure x.1.results := by
  induction ds generalizing s with
  | nil => exact fun x hx => absurd hx List.not_mem_nil
  | cons d ds ih =>
    have hnext : NoFailure (deliver e s d).results := by
      rw [deliver_results]
      exact h.suffix (written_getsThrough e h d).suffix
    exact List.forall_mem_cons.mpr ⟨h, ih hnext⟩

/-- **When nothing is lost to partial writes**, whatever is delivered and in whatever order: every key
and every chunk of the child's output is accepted by the one call that is made for it. -/
theorem complete_iff (e : Setting) {results : List WriteResult} (h : NoFailure results)
    (ds : List Delivery) :
    (∀ s ∈ states (deliver e) (.start results) ds, s.Complete) ↔
      ∀ x ∈ transitions (deliver e) (.start results) ds, AcceptsDelivery e x.1 x.2 := by
  have hstep (s : Destinations) (d : Delivery) (hs : s.Complete) (hvalid : NoFailure s.results) :
      (deliver e s d).Complete ↔ AcceptsDelivery e s d := deliver_complete_iff e hs hvalid d
  exact forall_states_iff hstep ⟨rfl, rfl⟩ (noFailure_of_mem_transitions e h)

/-- SEND_DATA, whose loop goes on after a call that accepts one byte only. -/
theorem complete_iff_sendData :
    (∀ s ∈ states (deliver .default) (.start [.short 0])
        [.request ⟨.sendData, [[0x61, 0x62]]⟩], s.Complete) ↔
      ∀ x ∈ transitions (deliver .default) (.start [.short 0])
        [.request ⟨.sendData, [[0x61, 0x62]]⟩], AcceptsDelivery .default x.1 x.2 :=
  complete_iff .default (by simp [NoFailure]) _

/-- The child writes two bytes, and the terminal accepts one. -/
theorem not_complete_childOutput :
    ¬ ∀ s ∈ states (deliver .default) (.start [.short 0]) [.childOutput [0x61, 0x62]],
      s.Complete := by
  intro h
  have hlast := h _ (foldl_mem_states _ _ _)
  exact absurd hlast.2 (by decide)

end LibFep
