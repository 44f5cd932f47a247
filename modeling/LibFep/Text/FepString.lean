import Mathlib.Algebra.Order.Ring.Nat
import LibFep.Control.Message

/-!
# LibFep — strings that grow

`struct _FepString` and its four functions in `libfep/string.c`, with the block that `str` points to. The
arguments of messages, `ptybuf`, `ttybuf` and the strings made of keys are such strings; elsewhere they
are taken as the bytes they hold.

* **`FepString.Holds`** — the block is as large as `cap` says, and starts with the bytes held.
* **`fepStringAppend_spec`** — an append stays in the block, also where twice `cap` does not fit in a
  `size_t`.
* **`fepString_run`** — what a string holds after any run of the functions, that the block is at most twice
  as large as ever needed, and that growing it has not cost more than that.
-/

namespace LibFep

/-- `struct _FepString`. The bytes of the block that nothing has been stored in are `none`. -/
structure FepString where
  str : List (Option UInt8)
  len : Nat
  cap : Nat

/-- After `memset (buf, 0, sizeof (FepString))`. -/
def FepString.empty : FepString := ⟨[], 0, 0⟩

/-! ## Memory -/

def xmalloc (n : Nat) : List (Option UInt8) := List.replicate n none

def xrealloc (block : List (Option UInt8)) (n : Nat) : List (Option UInt8) :=
  block.take n ++ xmalloc (n - block.length)

/-- `memcpy (block + start, bytes, count)`. -/
def memcpyTo (block : List (Option UInt8)) (start : Nat) (bytes : List (Option UInt8)) :
    Except Fault (List (Option UInt8)) :=
  if start + bytes.length ≤ block.length then
    .ok (block.take start ++ bytes ++ block.drop (start + bytes.length))
  else .error .badAccess

/-- The bytes that `memcpy (dst, block, len)` reads. -/
def memcpyFrom (block : List (Option UInt8)) (len : Nat) : Except Fault (List (Option UInt8)) :=
  if len ≤ block.length then .ok (block.take len) else .error .badAccess

/-! ## The functions -/

section

-- the number of bits of a `size_t`
variable (w : Nat)

/-- `buf->len + count`. -/
def FepString.needs (buf : FepString) (count : Nat) : Nat := (buf.len + count) % 2 ^ w

def fepStringAppend (buf : FepString) (bytes : List UInt8) : Except Fault FepString := do
  let needed := buf.needs w bytes.length
  let grown :=
    if needed > buf.cap then
      let cap := max (buf.cap * 2 % 2 ^ w) needed
      { buf with cap := cap, str := xrealloc buf.str cap }
    else buf
  let str ← memcpyTo grown.str buf.len (bytes.map some)
  return { grown with str := str, len := needed }

def fepStringAppendC (buf : FepString) (c : UInt8) : Except Fault FepString :=
  fepStringAppend w buf [c]

end

def fepStringClear (buf : FepString) : FepString := { buf with len := 0 }

def fepStringCopy (src : FepString) : Except Fault FepString := do
  let bytes ← memcpyFrom src.str src.len
  let str ← memcpyTo (xmalloc src.cap) 0 bytes
  return ⟨str, src.len, src.cap⟩

/-! ## What a string holds -/

structure FepString.Holds (buf : FepString) (bytes : List UInt8) : Prop where
  block : buf.str.length = buf.cap
  len : buf.len = bytes.length
  fits : bytes.length ≤ buf.cap
  bytes : buf.str.take bytes.length = bytes.map some

variable {w : Nat} {buf : FepString} {bytes : List UInt8}

theorem holds_empty : FepString.empty.Holds [] := ⟨rfl, rfl, Nat.le_refl 0, rfl⟩

theorem length_xrealloc (block : List (Option UInt8)) {n : Nat} (h : block.length ≤ n) :
    (xrealloc block n).length = n := by
  simp [xrealloc, xmalloc]
  omega

theorem take_xrealloc (block : List (Option UInt8)) {n k : Nat} (h : block.length ≤ n)
    (hk : k ≤ block.length) : (xrealloc block n).take k = block.take k := by
  rw [xrealloc, List.take_of_length_le h, List.take_append_of_le_length hk]

/-- Bytes are stored behind those that a block starts with. -/
theorem memcpyTo_ok {block : List (Option UInt8)} {bytes : List UInt8} (more : List UInt8)
    (hblock : block.take bytes.length = bytes.map some)
    (hfits : bytes.length + more.length ≤ block.length) :
    ∃ block', memcpyTo block bytes.length (more.map some) = .ok block' ∧
      block'.length = block.length ∧
      block'.take (bytes ++ more).length = (bytes ++ more).map some := by
  refine ⟨_, if_pos (by rwa [List.length_map]), ?_, ?_⟩
  · simp
    omega
  · rw [hblock, ← List.map_append]
    exact List.take_left' (by rw [List.length_map])

/-- The capacity behind an append: as before if it is enough, and otherwise as large as needed. -/
def grownCap (w cap needed : Nat) : Nat :=
  if needed > cap then max (cap * 2 % 2 ^ w) needed else cap

/-- **An append stays in the block** as long as the length itself fits in a `size_t`. -/
theorem fepStringAppend_spec (h : buf.Holds bytes) (more : List UInt8)
    (hlen : (bytes ++ more).length < 2 ^ w) :
    ∃ buf', fepStringAppend w buf more = .ok buf' ∧ buf'.Holds (bytes ++ more) ∧
      buf'.cap = grownCap w buf.cap (bytes ++ more).length := by
  have hneeds : buf.needs w more.length = (bytes ++ more).length := by
    rw [FepString.needs, h.len, ← List.length_append, Nat.mod_eq_of_lt hlen]
  rw [List.length_append] at hneeds hlen
  unfold fepStringAppend grownCap
  rw [hneeds, List.length_append]
  by_cases hgrow : bytes.length + more.length > buf.cap
  · simp only [if_pos hgrow]
    obtain ⟨cap, hcap⟩ : ∃ cap, cap = max (buf.cap * 2 % 2 ^ w) (bytes.length + more.length) :=
      ⟨_, rfl⟩
    rw [← hcap]
    -- the maximum is enough even if the double is cut off
    have hle : buf.str.length ≤ cap := by
      rw [h.block]
      omega
    have hfits : bytes.length + more.length ≤ cap := by omega
    have hstart : (xrealloc buf.str cap).take bytes.length = bytes.map some := by
      rw [take_xrealloc buf.str hle (by rw [h.block]; exact h.fits), h.bytes]
    obtain ⟨block', hcopy, hlength, htake⟩ := memcpyTo_ok more hstart
      (by rwa [length_xrealloc _ hle])
    rw [length_xrealloc _ hle] at hlength
    rw [h.len, hcopy]
    rw [← List.length_append] at hfits
    exact ⟨_, rfl, ⟨hlength, List.length_append.symm, hfits, htake⟩, rfl⟩
  · simp only [if_neg hgrow]
    have hfits : bytes.length + more.length ≤ buf.cap := by omega
    obtain ⟨block', hcopy, hlength, htake⟩ := memcpyTo_ok more h.bytes (by rwa [h.block])
    rw [h.len, hcopy]
    rw [← List.length_append] at hfits
    exact ⟨_, rfl, ⟨hlength.trans h.block, List.length_append.symm, hfits, htake⟩, rfl⟩

theorem fepStringClear_spec (h : buf.Holds bytes) : (fepStringClear buf).Holds [] :=
  ⟨h.block, rfl, Nat.zero_le _, rfl⟩

/-- A copy has a block of its own, of the same size. -/
theorem fepStringCopy_spec (h : buf.Holds bytes) :
    ∃ buf', fepStringCopy buf = .ok buf' ∧ buf'.Holds bytes ∧ buf'.cap = buf.cap := by
  have hread : memcpyFrom buf.str buf.len = .ok (bytes.map some) := by
    rw [memcpyFrom, h.len, if_pos (by rw [h.block]; exact h.fits), h.bytes]
  have hcap : (xmalloc buf.cap).length = buf.cap := List.length_replicate
  have hstart : (xmalloc buf.cap).take ([] : List UInt8).length = [].map some := rfl
  obtain ⟨block', hcopy, hlength, htake⟩ := memcpyTo_ok bytes hstart
    (by rw [hcap, List.length_nil, Nat.zero_add]; exact h.fits)
  unfold fepStringCopy
  rw [hread]
  show ∃ buf', (memcpyTo (xmalloc buf.cap) 0 (bytes.map some) >>= _) = _ ∧ _
  rw [show memcpyTo (xmalloc buf.cap) 0 (bytes.map some) = _ from hcopy]
  exact ⟨_, rfl, ⟨hlength.trans hcap, h.len, h.fits, htake⟩, rfl⟩

/-! ## Runs -/

/-- What is done with a string. After a copy, the run goes on with the copy. -/
inductive StringOp where
  | append (bytes : List UInt8)
  | appendC (c : UInt8)
  | clear
  | copy

/-- The bytes appended. -/
def StringOp.appended : StringOp → List UInt8
  | .append bytes => bytes
  | .appendC c => [c]
  | .clear | .copy => []

/-- The string, and how many bytes `xrealloc` has had to keep so far. -/
def stringStep (w : Nat) (s : FepString × Nat) (op : StringOp) : Except Fault (FepString × Nat) := do
  let kept := if s.1.needs w op.appended.length > s.1.cap then s.1.str.length else 0
  match op with
  | .append bytes => return (← fepStringAppend w s.1 bytes, s.2 + kept)
  | .appendC c => return (← fepStringAppendC w s.1 c, s.2 + kept)
  | .clear => return (fepStringClear s.1, s.2)
  | .copy => return (← fepStringCopy s.1, s.2)

/-- What the string is for: the bytes appended since it was last cleared, with the most it has had to
hold. -/
def heldStep (s : List UInt8 × Nat) : StringOp → List UInt8 × Nat
  | .append bytes => (s.1 ++ bytes, max s.2 (s.1 ++ bytes).length)
  | .appendC c => (s.1 ++ [c], max s.2 (s.1 ++ [c]).length)
  | .clear => ([], s.2)
  | .copy => s

def held (ops : List StringOp) : List UInt8 × Nat := ops.foldl heldStep ([], 0)

theorem le_heldStep (s : List UInt8 × Nat) (op : StringOp) : s.2 ≤ (heldStep s op).2 := by
  cases op with
  | append bytes => exact Nat.le_max_left _ _
  | appendC c => exact Nat.le_max_left _ _
  | clear | copy => exact Nat.le_refl _

theorem le_foldl_heldStep (s : List UInt8 × Nat) (ops : List StringOp) :
    s.2 ≤ (ops.foldl heldStep s).2 := by
  induction ops generalizing s with
  | nil => exact Nat.le_refl _
  | cons op ops ih => exact (le_heldStep s op).trans (ih (heldStep s op))

/-- The string holds what it is for. The block is not larger than twice the most it has held, and as long
as the double fits in a `size_t` it is as large as all that was kept. -/
structure Grown (w : Nat) (s : FepString × Nat) (bytes : List UInt8) (peak : Nat) : Prop where
  holds : s.1.Holds bytes
  le_peak : bytes.length ≤ peak
  cap : s.1.cap ≤ 2 * peak
  kept : 2 * peak < 2 ^ w → s.2 ≤ s.1.cap

/-- **Growing is paid for by the new block**: it is at least twice as large as the one before. -/
theorem Grown.append {s : FepString × Nat} {peak : Nat} (h : Grown w s bytes peak) (more : List UInt8)
    (hlen : max peak (bytes ++ more).length < 2 ^ w) :
    ∃ buf', fepStringAppend w s.1 more = .ok buf' ∧
      Grown w (buf', s.2 + if s.1.needs w more.length > s.1.cap then s.1.str.length else 0)
        (bytes ++ more) (max peak (bytes ++ more).length) := by
  obtain ⟨buf', hok, hholds, hcap⟩ := fepStringAppend_spec h.holds more
    (lt_of_le_of_lt (Nat.le_max_right _ _) hlen)
  have hneeds : s.1.needs w more.length = (bytes ++ more).length := by
    rw [FepString.needs, h.holds.len, ← List.length_append]
    exact Nat.mod_eq_of_lt (lt_of_le_of_lt (Nat.le_max_right _ _) hlen)
  have hpeak := h.cap
  have hmod := Nat.mod_le (s.1.cap * 2) (2 ^ w)
  refine ⟨buf', hok, hholds, Nat.le_max_right _ _, ?_, ?_⟩
  · show buf'.cap ≤ _
    rw [hcap, grownCap]
    split <;> omega
  · intro hfits
    have hkept := h.kept (by omega)
    rw [hneeds, h.holds.block]
    show _ ≤ buf'.cap
    rw [hcap, grownCap]
    split
    · rw [Nat.mod_eq_of_lt (by omega)]
      omega
    · exact hkept

theorem Grown.step {s : FepString × Nat} {peak : Nat} (h : Grown w s bytes peak) (op : StringOp)
    (hpeak : (heldStep (bytes, peak) op).2 < 2 ^ w) :
    ∃ s', stringStep w s op = .ok s' ∧
      Grown w s' (heldStep (bytes, peak) op).1 (heldStep (bytes, peak) op).2 := by
  cases op with
  | append more =>
    obtain ⟨buf', hok, hgrown⟩ := h.append more hpeak
    refine ⟨_, ?_, hgrown⟩
    rw [stringStep, hok]
    rfl
  | appendC c =>
    obtain ⟨buf', hok, hgrown⟩ := h.append [c] hpeak
    refine ⟨_, ?_, hgrown⟩
    rw [stringStep, fepStringAppendC, hok]
    rfl
  | clear =>
    exact ⟨_, rfl, fepStringClear_spec h.holds, Nat.zero_le _, h.cap, h.kept⟩
  | copy =>
    obtain ⟨buf', hok, hholds, hcap⟩ := fepStringCopy_spec h.holds
    refine ⟨(buf', s.2), ?_, hholds, h.le_peak, hcap ▸ h.cap, fun hfits => hcap ▸ h.kept hfits⟩
    rw [stringStep, hok]
    rfl

theorem Grown.run {s : FepString × Nat} {peak : Nat} (h : Grown w s bytes peak) (ops : List StringOp)
    (hpeak : (ops.foldl heldStep (bytes, peak)).2 < 2 ^ w) :
    ∃ s', ops.foldlM (stringStep w) s = .ok s' ∧
      Grown w s' (ops.foldl heldStep (bytes, peak)).1 (ops.foldl heldStep (bytes, peak)).2 := by
  induction ops generalizing s bytes peak with
  | nil => exact ⟨s, rfl, h⟩
  | cons op ops ih =>
    have hstep : (heldStep (bytes, peak) op).2 < 2 ^ w :=
      lt_of_le_of_lt (le_foldl_heldStep _ ops) hpeak
    obtain ⟨s₁, hok, h₁⟩ := h.step op hstep
    obtain ⟨s', hrun, h'⟩ := ih h₁ hpeak
    exact ⟨s', bind_eq_ok.mpr ⟨s₁, hok, hrun⟩, h'⟩

/-- **Strings that grow.** In every run of the four functions in which no more bytes are held at once than
a `size_t` can count, no access leaves its block, and the string holds the bytes appended since it was
last cleared. Its block is at most twice as large as the most it has held, and unless that double is too
large for a `size_t`, all calls of `xrealloc` together have kept no more bytes than that. -/
theorem fepString_run (w : Nat) (ops : List StringOp) (hpeak : (held ops).2 < 2 ^ w) :
    ∃ buf kept, ops.foldlM (stringStep w) (FepString.empty, 0) = .ok (buf, kept) ∧
      buf.Holds (held ops).1 ∧ buf.cap ≤ 2 * (held ops).2 ∧
      (2 * (held ops).2 < 2 ^ w → kept ≤ 2 * (held ops).2) := by
  have hstart : Grown w (FepString.empty, 0) [] 0 :=
    ⟨holds_empty, Nat.le_refl 0, Nat.le_refl 0, fun _ => Nat.le_refl 0⟩
  obtain ⟨⟨buf, kept⟩, hrun, hgrown⟩ := hstart.run ops hpeak
  exact ⟨buf, kept, hrun, hgrown.holds, hgrown.cap,
    fun hfits => (hgrown.kept hfits).trans hgrown.cap⟩

/-- With a `size_t` of three bits: the double of six bytes is four, but seven bytes are needed. -/
theorem fepString_run_wrapped :
    ∃ buf kept, [StringOp.append [1, 2, 3, 4, 5, 6], .copy, .appendC 7].foldlM (stringStep 3)
        (FepString.empty, 0) = .ok (buf, kept) ∧
      buf.Holds [1, 2, 3, 4, 5, 6, 7] ∧ buf.cap ≤ 2 * 7 ∧ (2 * 7 < 2 ^ 3 → kept ≤ 2 * 7) :=
  fepString_run 3 [.append [1, 2, 3, 4, 5, 6], .copy, .appendC 7] (by decide)

end LibFep
