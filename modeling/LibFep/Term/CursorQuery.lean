import LibFep.Control.Wire
import LibFep.Term.CsiGrammar
import LibFep.Term.Output

/-!
# LibFep — the query for the cursor position

`_fep_output_dsr_cpr` of `fep/output.c` and `_fep_read` of `fep/input.c`: the bytes that are typed while
the terminal answers a query go through `ttybuf`. `read` is modelled as for the control messages, and the
scan by what it computes. The request `ESC [ 6 n` that is sent first is left out.

* **`laterReads_iff`** — `_fep_read` gives back what is in `ttybuf` as it is only if it is empty.
* **`dsrCprScan_ok`** — what the query puts back into `ttybuf`.
* **`accountsFor_iff`** — the queries that lose, invent and reorder no byte.
-/

namespace LibFep

open Lib

/-! ## `_fep_read` -/

/-- The bytes that were put back, and those that were typed and not read. -/
structure TtyIn where
  ttybuf : List UInt8
  pending : List UInt8
  deriving DecidableEq, Repr

/-- The return value of `_fep_read`, `none` for -1, and the bytes copied to the buffer. -/
structure FepRead where
  retval : Option Nat
  copied : List UInt8
  tty : TtyIn
  deriving DecidableEq, Repr

/-- `_fep_read`. The bytes that were put back are copied as far as there are any, and `count` is returned
in any case. -/
def fepRead (s : TtyIn) (count : Nat) (result : ReadResult) : FepRead :=
  if s.ttybuf ≠ [] then
    ⟨some count, s.ttybuf.take count, { s with ttybuf := s.ttybuf.drop count }⟩
  else
    match result with
    | .error => ⟨none, [], s⟩
    | result =>
      let bytes := s.pending.take (result.limit count)
      ⟨some bytes.length, bytes, { s with pending := s.pending.drop (result.limit count) }⟩

/-- Calls one after the other. -/
def fepReads : TtyIn → List (Nat × ReadResult) → List FepRead
  | _, [] => []
  | s, (count, result) :: calls =>
    fepRead s count result :: fepReads (fepRead s count result).tty calls

/-- The tty after the calls. -/
def afterReads (s : TtyIn) (calls : List (Nat × ReadResult)) : TtyIn :=
  calls.foldl (fun s call => (fepRead s call.1 call.2).tty) s

/-- The bytes that the caller takes from its buffer. -/
def FepRead.delivered (r : FepRead) : List UInt8 := r.copied.take (r.retval.getD 0)

/-- Later calls, whatever they ask for and whatever `read` returns, deliver the bytes in order, and none
returns more than it has copied. -/
def LaterReads (s : TtyIn) (bytes : List UInt8) : Prop :=
  ∀ calls, (∀ r ∈ fepReads s calls, r.retval.getD 0 ≤ r.copied.length) ∧
    (fepReads s calls).flatMap FepRead.delivered ++
      ((afterReads s calls).ttybuf ++ (afterReads s calls).pending) = bytes

theorem fepRead_of_ne (pending : List UInt8) (count : Nat) {result : ReadResult}
    (hr : result ≠ .error) :
    fepRead ⟨[], pending⟩ count result =
      ⟨some (pending.take (result.limit count)).length, pending.take (result.limit count),
        ⟨[], pending.drop (result.limit count)⟩⟩ := by
  cases result with
  | error => exact absurd rfl hr
  | short k => rfl
  | full => rfl

/-- With nothing put back, the bytes come from the tty. -/
theorem laterReads_nil (pending : List UInt8) : LaterReads ⟨[], pending⟩ pending := by
  intro calls
  induction calls generalizing pending with
  | nil => exact ⟨by simp [fepReads], rfl⟩
  | cons call calls ih =>
    obtain ⟨count, result⟩ := call
    by_cases hr : result = .error
    · subst hr
      obtain ⟨hretval, hbytes⟩ := ih pending
      exact ⟨List.forall_mem_cons.mpr ⟨Nat.le_refl 0, hretval⟩, hbytes⟩
    · obtain ⟨hretval, hbytes⟩ := ih (pending.drop (result.limit count))
      have hread := fepRead_of_ne pending count hr
      constructor
      · rw [fepReads, hread]
        exact List.forall_mem_cons.mpr ⟨Nat.le_refl _, hretval⟩
      · show (fepReads _ ((count, result) :: calls)).flatMap FepRead.delivered ++
          ((afterReads (fepRead ⟨[], pending⟩ count result).tty calls).ttybuf ++
            (afterReads (fepRead ⟨[], pending⟩ count result).tty calls).pending) = pending
        rw [fepReads, hread, List.flatMap_cons, List.append_assoc, hbytes, FepRead.delivered,
          Option.getD_some, List.take_length, List.take_append_drop]

/-- **Later calls deliver the bytes only if nothing was put back**: a call that asks for one byte more than
was put back returns this number. -/
theorem laterReads_iff {s : TtyIn} {bytes : List UInt8} :
    LaterReads s bytes ↔ s.ttybuf = [] ∧ s.pending = bytes := by
  constructor
  · intro h
    have hnil : s.ttybuf = [] := by
      by_contra hne
      have hread : fepRead s (s.ttybuf.length + 1) .full =
          ⟨some (s.ttybuf.length + 1), s.ttybuf.take (s.ttybuf.length + 1),
            { s with ttybuf := s.ttybuf.drop (s.ttybuf.length + 1) }⟩ := by
        exact if_pos hne
      have hle := (h [(s.ttybuf.length + 1, .full)]).1 _ List.mem_cons_self
      rw [hread, Option.getD_some, List.length_take] at hle
      omega
    have hall := (h []).2
    simp only [fepReads, afterReads, List.flatMap_nil, List.foldl_nil, List.nil_append] at hall
    rw [hnil, List.nil_append] at hall
    exact ⟨hnil, hall⟩
  · rintro ⟨hnil, rfl⟩
    obtain ⟨ttybuf, pending⟩ := s
    obtain rfl : ttybuf = [] := hnil
    exact laterReads_nil pending

/-! ## `_fep_output_dsr_cpr` -/

/-- The return value, the point, and the tty. -/
structure DsrCpr where
  found : Bool
  point : FepPoint
  tty : TtyIn
  deriving DecidableEq, Repr

/-- The numbers between `ESC [` and `R`. Where there are fewer than two, `strtoul` gets the `NULL` at the
end of the vector. -/
def readReport (p : Platform) (text : List UInt8) (point : FepPoint) :
    Except Fault (Bool × FepPoint) :=
  match strsplit text [0x3B] semicolon_ne_nil with
  | [] => .error .badAccess
  | row :: strv =>
    let point := { point with row := (p.strtoul row).toInt }
    if (p.strtoul row).Passes then
      match strv with
      | [] => .error .badAccess
      | col :: _ => .ok ((p.strtoul col).Passes, { point with col := (p.strtoul col).toInt })
    else .ok (false, point)

/-- The query with the bytes that were read. What is around the report goes to the end of `ttybuf`. -/
def dsrCprScan (p : Platform) (csibuf : List UInt8) (tty : TtyIn) (point : FepPoint) :
    Except Fault DsrCpr :=
  match csiScan p csibuf 0x52 with
  | .found csi csiLen => do
    let (found, point) ← readReport p ((csibuf.drop (csi + 2)).take (csiLen - 3)) point
    if found then
      let around := csibuf.take csi ++ csibuf.drop (csi + csiLen)
      return ⟨true, point, { tty with ttybuf := tty.ttybuf ++ around }⟩
    return ⟨false, point, tty⟩
  | _ => .ok ⟨false, point, tty⟩

/-- `_fep_output_dsr_cpr`. The loop runs once: `RETRY` is 2, and is decremented before the test. `junk` is
what `buf` holds before the read. -/
def outputDsrCpr (p : Platform) (s : TtyIn) (junk : Vector UInt8 16) (result : ReadResult)
    (point : FepPoint) : Except Fault DsrCpr :=
  let read := fepRead s 16 result
  match read.retval with
  | none => .ok ⟨false, point, read.tty⟩
  | some bytesRead =>
    let buf := read.copied ++ junk.toList.drop read.copied.length
    dsrCprScan p (buf.take bytesRead) read.tty point

/-! ## Reports -/

/-- A report of the cursor position that can be read: its first two numbers pass. -/
def IsReport (p : Platform) (bytes : List UInt8) : Prop :=
  ∃ s : ControlSequence, bytes = s.bytes ∧ s.final = 0x52 ∧ ∃ row col strv,
    strsplit (s.params ++ s.intermediates) [0x3B] semicolon_ne_nil = row :: col :: strv ∧
      (p.strtoul row).Passes ∧ (p.strtoul col).Passes

theorem readReport_true_iff {p : Platform} {text : List UInt8} {point : FepPoint} :
    (∃ point', readReport p text point = .ok (true, point')) ↔ ∃ row col strv,
      strsplit text [0x3B] semicolon_ne_nil = row :: col :: strv ∧
        (p.strtoul row).Passes ∧ (p.strtoul col).Passes := by
  unfold readReport
  rcases strsplit text [0x3B] semicolon_ne_nil with _ | ⟨row, _ | ⟨col, strv⟩⟩
  · simp
  · by_cases hrow : (p.strtoul row).Passes <;> simp [hrow]
  · by_cases hrow : (p.strtoul row).Passes
    · by_cases hcol : (p.strtoul col).Passes <;> simp [hrow, hcol]
    · simp [hrow]

/-- The text that is read of a sequence. -/
theorem reportText (a t : List UInt8) (s : ControlSequence) :
    ((a ++ (s.bytes ++ t)).drop (a.length + 2)).take (s.length - 3) = s.params ++ s.intermediates := by
  have hlen : s.length - 3 = (s.params ++ s.intermediates).length := by
    rw [List.length_append, ControlSequence.length]
    omega
  have hbytes : s.bytes ++ t = escape :: 0x5B :: ((s.params ++ s.intermediates) ++ (s.final :: t)) := by
    rw [s.bytes_append, List.append_assoc]
  rw [← List.drop_drop, List.drop_left, hbytes, hlen]
  exact List.take_left

/-- The sequence that the scan finds has the final byte. -/
theorem exists_of_csiScan_found {p : Platform} {final : UInt8} (hfinal : final < 0x80)
    {str : List UInt8} {i len : Nat} (h : csiScan p str final = .found i len) :
    ∃ a t, ∃ s : ControlSequence, str = a ++ (s.bytes ++ t) ∧ i = a.length ∧ len = s.length ∧
      s.final = final := by
  obtain ⟨a, t, s, hstr, hi, hlen, hs⟩ := exists_of_csiScanLoop_found h
  exact ⟨a, t, s, hstr, by rw [hi, Nat.zero_add], hlen, (finalMatches_iff hfinal).mp hs⟩

/-- **What the query does with the bytes it has read**: it finds no report and drops them, or it finds one
and puts those around it back. -/
theorem dsrCprScan_ok {p : Platform} {csibuf : List UInt8} {tty : TtyIn} {point : FepPoint}
    {d : DsrCpr} (h : dsrCprScan p csibuf tty point = .ok d) :
    (d.found = false ∧ d.tty = tty) ∨
      (d.found = true ∧ ∃ a report b, csibuf = a ++ (report ++ b) ∧ IsReport p report ∧
        d.tty = { tty with ttybuf := tty.ttybuf ++ (a ++ b) }) := by
  unfold dsrCprScan at h
  split at h
  · next csi csiLen hscan =>
    obtain ⟨a, t, s, rfl, rfl, rfl, hs⟩ := exists_of_csiScan_found (by decide) hscan
    obtain ⟨⟨found, point'⟩, hread, hd⟩ := bind_eq_ok.mp h
    rw [reportText] at hread
    cases found with
    | false =>
      obtain rfl := Except.ok.inj hd
      exact Or.inl ⟨rfl, rfl⟩
    | true =>
      obtain rfl := Except.ok.inj hd
      refine Or.inr ⟨rfl, a, s.bytes, t, rfl, ⟨s, rfl, hs, readReport_true_iff.mp ⟨point', hread⟩⟩, ?_⟩
      rw [List.take_left, ← List.drop_drop, List.drop_left, ← s.length_bytes, List.drop_left]
  · obtain rfl := Except.ok.inj h
    exact Or.inl ⟨rfl, rfl⟩

theorem dsrCprScan_nil (p : Platform) (tty : TtyIn) (point : FepPoint) :
    dsrCprScan p [] tty point = .ok ⟨false, point, tty⟩ := by
  have hscan : csiScan p [] 0x52 = .notFound := by simp [csiScan, csiScanLoop]
  unfold dsrCprScan
  rw [hscan]

/-- Nothing but a report: it is found, and nothing is put back. -/
theorem dsrCprScan_report {p : Platform} {csibuf : List UInt8} (h : IsReport p csibuf) (tty : TtyIn)
    (point : FepPoint) :
    ∃ point', dsrCprScan p csibuf tty point = .ok ⟨true, point', tty⟩ := by
  obtain ⟨s, rfl, hs, hnumbers⟩ := h
  obtain ⟨point', hread⟩ := (@readReport_true_iff p _ point).mpr hnumbers
  have hscan : csiScan p s.bytes 0x52 = .found 0 s.length := hs ▸ csiScan_of_isPrefix p List.prefix_rfl
  have htext := reportText [] [] s
  simp only [List.nil_append, List.append_nil, List.length_nil] at htext
  refine ⟨point', ?_⟩
  unfold dsrCprScan
  rw [hscan]
  simp only [htext, hread, ok_bind, if_true]
  rw [Nat.zero_add, ← s.length_bytes, List.drop_length, List.take_zero, List.append_nil,
    List.append_nil]
  rfl

/-- A part of a report that ends before it has no `R`. -/
theorem not_mem_of_isPrefix {p : Platform} {report bytes : List UInt8} (h : IsReport p report)
    (hpre : bytes <+: report) (hlt : bytes.length < report.length) : 0x52 ∉ bytes := by
  obtain ⟨s, rfl, -, -⟩ := h
  have hlast : s.bytes = (escape :: 0x5B :: (s.params ++ s.intermediates)) ++ [s.final] := by
    simp [ControlSequence.bytes]
  have hbefore : bytes <+: escape :: 0x5B :: (s.params ++ s.intermediates) := by
    apply List.prefix_of_prefix_length_le (hlast ▸ hpre) (List.prefix_append _ _)
    rw [hlast, List.length_append, List.length_singleton] at hlt
    exact Nat.le_of_lt_succ hlt
  intro hmem
  rcases List.mem_cons.mp (hbefore.subset hmem) with heq | hmem
  · exact absurd heq (by decide)
  rcases List.mem_cons.mp hmem with heq | hmem
  · exact absurd heq (by decide)
  rcases List.mem_append.mp hmem with hparam | hintermediate
  · exact absurd (s.params_ok _ hparam) (by decide)
  · exact absurd (s.intermediates_ok _ hintermediate) (by decide)

theorem mem_of_isReport {p : Platform} {report : List UInt8} (h : IsReport p report) :
    0x52 ∈ report := by
  obtain ⟨s, rfl, hs, -⟩ := h
  rw [← hs]
  simp [ControlSequence.bytes]

/-! ## Accounting for the bytes -/

/-- The query returns, and later reads deliver what was put back and what is typed, in order and without
the report if it was found. -/
def AccountsFor (p : Platform) (s : TtyIn) (junk : Vector UInt8 16) (result : ReadResult)
    (point : FepPoint) : Prop :=
  ∃ d, outputDsrCpr p s junk result point = .ok d ∧ ∃ bytes, LaterReads d.tty bytes ∧
    if d.found then
      ∃ a report b, s.ttybuf ++ s.pending = a ++ (report ++ b) ∧ IsReport p report ∧ bytes = a ++ b
    else bytes = s.ttybuf ++ s.pending

/-- Nothing was put back, and `read` fails. -/
theorem outputDsrCpr_error (p : Platform) (pending : List UInt8) (junk : Vector UInt8 16)
    (point : FepPoint) :
    outputDsrCpr p ⟨[], pending⟩ junk .error point = .ok ⟨false, point, ⟨[], pending⟩⟩ := rfl

/-- Nothing was put back, and `read` returns. -/
theorem outputDsrCpr_pending (p : Platform) (pending : List UInt8) (junk : Vector UInt8 16)
    {result : ReadResult} (hr : result ≠ .error) (point : FepPoint) :
    outputDsrCpr p ⟨[], pending⟩ junk result point =
      dsrCprScan p (pending.take (result.limit 16)) ⟨[], pending.drop (result.limit 16)⟩ point := by
  simp only [outputDsrCpr, fepRead_of_ne pending 16 hr]
  rw [List.take_left]

/-- There are bytes that were put back: `buf` is scanned to its end. -/
theorem outputDsrCpr_ttybuf (p : Platform) {s : TtyIn} (hs : s.ttybuf ≠ [])
    (junk : Vector UInt8 16) (result : ReadResult) (point : FepPoint) :
    outputDsrCpr p s junk result point =
      dsrCprScan p (s.ttybuf.take 16 ++ junk.toList.drop s.ttybuf.length)
        ⟨s.ttybuf.drop 16, s.pending⟩ point := by
  have hread : fepRead s 16 result =
      ⟨some 16, s.ttybuf.take 16, { s with ttybuf := s.ttybuf.drop 16 }⟩ := if_pos hs
  have hdrop : junk.toList.drop (s.ttybuf.take 16).length = junk.toList.drop s.ttybuf.length := by
    rcases Nat.le_total s.ttybuf.length 16 with hle | hle
    · rw [List.take_of_length_le hle]
    · rw [List.length_take, Nat.min_eq_left hle, List.drop_eq_nil_of_le (by simp),
        List.drop_eq_nil_of_le (by simpa using hle)]
  have hlen : (s.ttybuf.take 16 ++ junk.toList.drop s.ttybuf.length).length ≤ 16 := by
    rw [List.length_append, List.length_take, List.length_drop, Vector.length_toList]
    omega
  simp only [outputDsrCpr, hread, hdrop]
  rw [List.take_of_length_le hlen]

/-- Bytes that are read accounted for: it is a report that was read, or nothing. -/
theorem accounts_dsrCprScan {p : Platform} {csibuf : List UInt8} {tty : TtyIn} {point : FepPoint}
    {d : DsrCpr} {bytes : List UInt8} (h : dsrCprScan p csibuf tty point = .ok d)
    (hlater : LaterReads d.tty bytes) :
    tty.ttybuf = [] ∧ bytes = tty.pending ∧ (d.found = true → IsReport p csibuf) := by
  obtain ⟨hnil, hpending⟩ := laterReads_iff.mp hlater
  rcases dsrCprScan_ok h with ⟨hfound, htty⟩ | ⟨-, a, report, b, rfl, hreport, htty⟩
  · rw [htty] at hnil hpending
    exact ⟨hnil, hpending.symm, fun hd => absurd (hd.symm.trans hfound) (by decide)⟩
  · rw [htty] at hnil hpending
    obtain ⟨hold, haround⟩ := List.append_eq_nil_iff.mp hnil
    obtain ⟨rfl, rfl⟩ := List.append_eq_nil_iff.mp haround
    refine ⟨hold, hpending.symm, fun _ => ?_⟩
    rwa [List.nil_append, List.append_nil]

/-- A report with nothing around it is taken out. -/
theorem accounts_of_isReport {p : Platform} {csibuf : List UInt8} (h : IsReport p csibuf)
    (pending : List UInt8) (point : FepPoint) :
    ∃ d, dsrCprScan p csibuf ⟨[], pending⟩ point = .ok d ∧ ∃ bytes, LaterReads d.tty bytes ∧
      if d.found then
        ∃ a report b, csibuf ++ pending = a ++ (report ++ b) ∧ IsReport p report ∧ bytes = a ++ b
      else bytes = csibuf ++ pending := by
  obtain ⟨point', hscan⟩ := dsrCprScan_report h ⟨[], pending⟩ point
  refine ⟨_, hscan, pending, laterReads_nil pending, ?_⟩
  rw [if_pos rfl]
  exact ⟨[], csibuf, pending, rfl, h, rfl⟩

/-- A `read` that returns. -/
theorem accountsFor_pending_iff (p : Platform) (pending : List UInt8) (junk : Vector UInt8 16)
    {result : ReadResult} (hr : result ≠ .error) (point : FepPoint) :
    AccountsFor p ⟨[], pending⟩ junk result point ↔
      pending.take (result.limit 16) = [] ∨ IsReport p (pending.take (result.limit 16)) := by
  have hsplit : pending = pending.take (result.limit 16) ++ pending.drop (result.limit 16) :=
    (List.take_append_drop _ _).symm
  rw [AccountsFor, outputDsrCpr_pending p pending junk hr point]
  constructor
  · rintro ⟨d, hd, bytes, hlater, hbytes⟩
    obtain ⟨-, rfl, hreport⟩ := accounts_dsrCprScan hd hlater
    cases hfound : d.found with
    | true => exact Or.inr (hreport hfound)
    | false =>
      rw [hfound, if_neg (by decide)] at hbytes
      -- the bytes that were read are gone
      have hgone : [] ++ pending.drop (result.limit 16) =
          pending.take (result.limit 16) ++ pending.drop (result.limit 16) := hbytes.trans hsplit
      exact Or.inl (List.append_cancel_right hgone).symm
  · rintro (hnone | hreport)
    · have hrest : pending.drop (result.limit 16) = pending := by
        rw [hnone, List.nil_append] at hsplit
        exact hsplit.symm
      rw [hnone, hrest]
      exact ⟨_, dsrCprScan_nil p ⟨[], pending⟩ point, pending, laterReads_nil pending, rfl⟩
    · obtain ⟨d, hd, bytes, hlater, hbytes⟩ :=
        accounts_of_isReport hreport (pending.drop (result.limit 16)) point
      rw [← hsplit] at hbytes
      exact ⟨d, hd, bytes, hlater, hbytes⟩

/-- Fewer bytes were put back than `buf` holds. -/
theorem not_accountsFor_of_lt (p : Platform) {s : TtyIn} (hne : s.ttybuf ≠ [])
    (hlt : s.ttybuf.length < 16) (junk : Vector UInt8 16) (result : ReadResult) (point : FepPoint) :
    ¬ AccountsFor p s junk result point := by
  rintro ⟨d, hd, bytes, hlater, hbytes⟩
  rw [outputDsrCpr_ttybuf p hne, List.take_of_length_le (Nat.le_of_lt hlt)] at hd
  obtain ⟨-, rfl, hreport⟩ := accounts_dsrCprScan hd hlater
  cases hfound : d.found with
  | false =>
    rw [hfound, if_neg (by decide)] at hbytes
    exact hne (List.self_eq_append_left.mp hbytes)
  | true =>
    rw [hfound, if_pos rfl] at hbytes
    obtain ⟨a, report, b, hall, hreport', hab⟩ := hbytes
    -- what was put back holds no `R`, and a report is taken out of it and what is typed
    have hnone : 0x52 ∉ s.ttybuf := by
      apply not_mem_of_isPrefix (hreport hfound) (List.prefix_append _ _)
      rw [List.length_append, List.length_drop, Vector.length_toList]
      omega
    have hcount := congrArg (List.count 0x52) hall
    have htyped := congrArg (List.count 0x52) hab
    simp only [List.count_append] at hcount htyped
    have hpos : 0 < report.count 0x52 := List.count_pos_iff.mpr (mem_of_isReport hreport')
    have hzero : s.ttybuf.count 0x52 = 0 := List.count_eq_zero.mpr hnone
    omega

/-- More bytes were put back than `buf` holds. -/
theorem not_accountsFor_of_gt (p : Platform) {s : TtyIn} (hgt : 16 < s.ttybuf.length)
    (junk : Vector UInt8 16) (result : ReadResult) (point : FepPoint) :
    ¬ AccountsFor p s junk result point := by
  rintro ⟨d, hd, bytes, hlater, -⟩
  have hne : s.ttybuf ≠ [] := List.ne_nil_of_length_pos (Nat.zero_lt_of_lt hgt)
  rw [outputDsrCpr_ttybuf p hne] at hd
  have hrest : s.ttybuf.drop 16 = [] := (accounts_dsrCprScan hd hlater).1
  have hle := List.drop_eq_nil_iff.mp hrest
  omega

/-- As many bytes were put back as `buf` holds. -/
theorem accountsFor_full_iff (p : Platform) {s : TtyIn} (hfull : s.ttybuf.length = 16)
    (junk : Vector UInt8 16) (result : ReadResult) (point : FepPoint) :
    AccountsFor p s junk result point ↔ IsReport p s.ttybuf := by
  have hne : s.ttybuf ≠ [] := List.ne_nil_of_length_pos (by omega)
  have hjunk : junk.toList.drop s.ttybuf.length = [] :=
    List.drop_eq_nil_of_le (by rw [Vector.length_toList, hfull])
  have hrest : s.ttybuf.drop 16 = [] := List.drop_eq_nil_of_le (Nat.le_of_eq hfull)
  rw [AccountsFor, outputDsrCpr_ttybuf p hne, List.take_of_length_le (Nat.le_of_eq hfull), hjunk,
    hrest, List.append_nil]
  constructor
  · rintro ⟨d, hd, bytes, hlater, hbytes⟩
    obtain ⟨-, rfl, hreport⟩ := accounts_dsrCprScan hd hlater
    cases hfound : d.found with
    | true => exact hreport hfound
    | false =>
      rw [hfound, if_neg (by decide)] at hbytes
      exact absurd (List.self_eq_append_left.mp hbytes) hne
  · exact fun hreport => accounts_of_isReport hreport s.pending point

/-- **The queries that lose, invent and reorder no byte**: nothing was put back and what is read is nothing
or the report, or the report is exactly what was put back and fills `buf`. -/
theorem accountsFor_iff (p : Platform) (s : TtyIn) (junk : Vector UInt8 16) (result : ReadResult)
    (point : FepPoint) :
    AccountsFor p s junk result point ↔
      (s.ttybuf = [] ∧ (s.pending.take (result.limit 16) = [] ∨
        IsReport p (s.pending.take (result.limit 16)))) ∨
      (s.ttybuf.length = 16 ∧ IsReport p s.ttybuf) := by
  obtain ⟨ttybuf, pending⟩ := s
  by_cases hnil : ttybuf = []
  · subst hnil
    have hfull : ¬ (([] : List UInt8).length = 16 ∧ IsReport p []) := fun h => absurd h.1 (by decide)
    rw [or_iff_left hfull, and_iff_right rfl]
    cases result with
    | error =>
      refine iff_of_true ⟨_, outputDsrCpr_error p pending junk point, pending, ?_, rfl⟩ (Or.inl rfl)
      exact laterReads_nil pending
    | short k => exact accountsFor_pending_iff p pending junk (by simp) point
    | full => exact accountsFor_pending_iff p pending junk (by simp) point
  · rw [or_iff_right fun h => hnil h.1]
    rcases Nat.lt_trichotomy ttybuf.length 16 with hlt | hfull | hgt
    · exact iff_of_false (not_accountsFor_of_lt p hnil hlt junk result point)
        fun h => Nat.ne_of_lt hlt h.1
    · rw [accountsFor_full_iff p hfull junk result point, and_iff_right hfull]
    · exact iff_of_false (not_accountsFor_of_gt p hgt junk result point)
        fun h => Nat.ne_of_gt hgt h.1

/-- A byte is typed before the report arrives, and is lost. -/
theorem not_accountsFor_typed :
    ¬ ∀ (p : Platform) (s : TtyIn) (junk : Vector UInt8 16) (result : ReadResult) (point : FepPoint),
      AccountsFor p s junk result point := by
  intro h
  obtain ⟨d, hd, bytes, hlater, hbytes⟩ :=
    h Platform.x86_64 ⟨[], [0x61, 0x1B, 0x5B, 0x31, 0x3B, 0x31, 0x52]⟩ (Vector.replicate 16 0)
      (.short 0) ⟨0, 0⟩
  have hquery : outputDsrCpr Platform.x86_64 ⟨[], [0x61, 0x1B, 0x5B, 0x31, 0x3B, 0x31, 0x52]⟩
      (Vector.replicate 16 0) (.short 0) ⟨0, 0⟩ =
      .ok ⟨false, ⟨0, 0⟩, ⟨[], [0x1B, 0x5B, 0x31, 0x3B, 0x31, 0x52]⟩⟩ := by decide +kernel
  obtain rfl := Except.ok.inj (hquery.symm.trans hd)
  obtain ⟨-, rfl⟩ := laterReads_iff.mp hlater
  rw [if_neg (by decide)] at hbytes
  exact absurd hbytes (by decide)

end LibFep
