import LibFep.Lib.Runs
import LibFep.Term.Accumulate
import LibFep.Term.Rendition
import LibFep.Text.Encoding

/-!
# LibFep — texts with attributes

What the terminal makes of a text that `_fep_output_string_with_attribute` of `fep/output.c` writes: the
part in the range of its attribute is printed in the attribute's rendition, the rest without. The
terminal takes the bytes of the text as it takes any others, so that a text with ESC can do more.

* **`Prints.outputTruncated`** — a text is printed piece by piece, each in the rendition of its range.
* **`rendition_follows`** — in every run the rendition is the server's `attr`, for texts without ESC.
-/

namespace LibFep

open Lib

variable {loc : Locale} {codes : SgrCodes} {fep : Fep loc} {old attr : FepSgrAttr}
  {printed : List (UInt8 × FepSgrAttr)}

/-! ## Texts -/

/-- A conversion of text without ESC, back and forth, brings in no ESC. -/
structure Locale.NoNewEscape (loc : Locale) : Prop where
  strIconv : ∀ str local', loc.strIconv str = some local' → escape ∉ str → escape ∉ local'
  wcsrtombs : ∀ str wcs len, escape ∉ str → wcs.Sublist (loc.mbsrtowcs str).1 →
    escape ∉ loc.wcsrtombs wcs len

theorem noNewEscape_c : Locale.c.NoNewEscape where
  strIconv := by
    intro str local' h hstr
    simp only [Locale.c, Option.ite_none_right_eq_some, Option.some.injEq] at h
    exact h.2 ▸ hstr
  wcsrtombs := by
    intro str wcs len hstr hsub hmem
    obtain ⟨wc, hwc, hescape⟩ := List.mem_map.mp (List.mem_of_mem_take hmem)
    obtain ⟨b, hb, rfl⟩ := List.mem_map.mp (hsub.subset hwc)
    have hb' : b = escape := by
      rw [← hescape]
      simp
    exact hstr (hb' ▸ (List.takeWhile_prefix _).subset hb)

theorem strtruncLoop_sublist (width total : Int) (wcs : List Wchar) :
    (strtruncLoop loc width total wcs).Sublist wcs := by
  rw [strtruncLoop_eq_fit]
  exact List.IsPrefix.sublist <| fit_isPrefix loc.wcwidth width total wcs

/-- A text without ESC has none after it was truncated. -/
theorem escape_not_mem_of_strtrunc (hloc : loc.NoNewEscape) {str local' trunc : List UInt8}
    {width : Int} (hstr : escape ∉ str) (hlocal : loc.strIconv str = some local')
    (htrunc : strtrunc loc local' width = some trunc) : escape ∉ trunc := by
  have hlocal' := hloc.strIconv str local' hlocal hstr
  unfold strtrunc at htrunc
  split at htrunc
  · exact absurd htrunc (by simp)
  · next wcs hwcs =>
    rw [← Option.some.inj htrunc]
    refine hloc.wcsrtombs local' _ _ hlocal' ?_
    rw [hwcs]
    exact strtruncLoop_sublist _ _ wcs

/-- The rendition that the `i`th character of a text is to be printed in. -/
def charRendition (attr : FepAttribute) (i : Nat) : FepSgrAttr :=
  if attr.type ≠ fepAttrTypeNone ∧ min attr.startIndex.toNat attr.endIndex.toNat ≤ i ∧
      i < max attr.startIndex.toNat attr.endIndex.toNat then sgrAttrFromAttribute attr
  else fepEmptyAttr

/-- Characters of a text, from `first` up to `last`, in one rendition. -/
structure Piece where
  first : Nat
  last : Nat
  rendition : FepSgrAttr

def Piece.cells (loc : Locale) (trunc : List UInt8) (piece : Piece) : List (UInt8 × FepSgrAttr) :=
  (loc.wcsrtombs (((loc.mbsrtowcs trunc).1.take piece.last).drop piece.first) trunc.length).map
    fun b => (b, piece.rendition)

/-- Each of the characters is to be printed in this rendition. -/
structure Piece.Fits (loc : Locale) (trunc : List UInt8) (attr : FepAttribute) (piece : Piece) :
    Prop where
  lt : piece.first < piece.last
  le_length : piece.last ≤ (loc.mbsrtowcs trunc).1.length
  rendition_eq : ∀ i, piece.first ≤ i → i < piece.last → piece.rendition = charRendition attr i

/-- What was printed are characters of a text, in their order and none twice, each in its rendition. -/
def PrintedAs (loc : Locale) (trunc : List UInt8) (attr : FepAttribute)
    (cells : List (UInt8 × FepSgrAttr)) : Prop :=
  ∃ pieces : List Piece, cells = pieces.flatMap (·.cells loc trunc) ∧
    (∀ piece ∈ pieces, piece.Fits loc trunc attr) ∧
      pieces.Pairwise fun piece next => piece.last ≤ next.first

theorem PrintedAs.nil (loc : Locale) (trunc : List UInt8) (attr : FepAttribute) :
    PrintedAs loc trunc attr [] := ⟨[], rfl, List.forall_mem_nil _, List.Pairwise.nil⟩

/-- As above, with the characters before the one at `stop` only. -/
def PrintedBefore (loc : Locale) (trunc : List UInt8) (attr : FepAttribute) (stop : Nat)
    (cells : List (UInt8 × FepSgrAttr)) : Prop :=
  ∃ pieces : List Piece, cells = pieces.flatMap (·.cells loc trunc) ∧
    (∀ piece ∈ pieces, piece.Fits loc trunc attr ∧ piece.last ≤ stop) ∧
      pieces.Pairwise fun piece next => piece.last ≤ next.first

theorem PrintedBefore.printedAs {trunc : List UInt8} {attr : FepAttribute} {stop : Nat}
    {cells : List (UInt8 × FepSgrAttr)} (h : PrintedBefore loc trunc attr stop cells) :
    PrintedAs loc trunc attr cells := by
  obtain ⟨pieces, hcells, hpieces, horder⟩ := h
  exact ⟨pieces, hcells, fun piece hmem => (hpieces piece hmem).1, horder⟩

theorem PrintedBefore.mono {trunc : List UInt8} {attr : FepAttribute} {stop stop' : Nat}
    {cells : List (UInt8 × FepSgrAttr)} (h : PrintedBefore loc trunc attr stop cells)
    (hle : stop ≤ stop') : PrintedBefore loc trunc attr stop' cells := by
  obtain ⟨pieces, hcells, hpieces, horder⟩ := h
  refine ⟨pieces, hcells, fun piece hmem => ?_, horder⟩
  obtain ⟨hfits, hlast⟩ := hpieces piece hmem
  exact ⟨hfits, hlast.trans hle⟩

/-- A piece from `stop` on goes behind all others. -/
theorem PrintedBefore.append_piece {trunc : List UInt8} {attr : FepAttribute}
    {cells : List (UInt8 × FepSgrAttr)} {piece : Piece}
    (h : PrintedBefore loc trunc attr piece.first cells) (hpiece : piece.Fits loc trunc attr) :
    PrintedBefore loc trunc attr piece.last (cells ++ piece.cells loc trunc) := by
  obtain ⟨pieces, rfl, hpieces, horder⟩ := h
  refine ⟨pieces ++ [piece], ?_, ?_, ?_⟩
  · rw [List.flatMap_append, List.flatMap_singleton]
  · intro other hmem
    rcases List.mem_append.mp hmem with hmem | hmem
    · obtain ⟨hfits, hlast⟩ := hpieces other hmem
      exact ⟨hfits, hlast.trans (Nat.le_of_lt hpiece.lt)⟩
    · rw [List.mem_singleton.mp hmem]
      exact ⟨hpiece, Nat.le_refl _⟩
  · refine List.pairwise_append.mpr ⟨horder, List.pairwise_singleton _ _, ?_⟩
    intro other hmem next hnext
    rw [List.mem_singleton.mp hnext]
    exact (hpieces other hmem).2

/-- The characters of a substring, where there are so many. -/
theorem substring_eq_some {trunc p : List UInt8} {first last : BitVec 32} (hlt : first < last)
    (h : substring loc trunc first.toInt last.toInt = some p) :
    last.toNat ≤ (loc.mbsrtowcs trunc).1.length ∧
      p = loc.wcsrtombs (((loc.mbsrtowcs trunc).1.take last.toNat).drop first.toNat)
        trunc.length := by
  unfold substring at h
  split at h
  · exact absurd h (by simp)
  · next wcs hwcs =>
    dsimp only at h
    split at h
    · exact absurd h (by simp)
    · next hrange =>
      rw [hwcs]
      dsimp only
      have hlt' : first.toNat < last.toNat := hlt
      -- an index from 2 ^ 31 on is negative, and out of range
      have hnat (x : BitVec 32) (hx : 0 ≤ x.toInt) : x.toInt = x.toNat :=
        BitVec.toInt_eq_toNat_of_lt (BitVec.toInt_pos_iff.mp hx)
      rw [hnat first (by omega), hnat last (by omega)] at h hrange
      have hmin : min (first.toNat : Int) last.toNat = first.toNat := by omega
      have hmax : max (first.toNat : Int) last.toNat = last.toNat := by omega
      rw [hmin, hmax] at h hrange
      refine ⟨by omega, ?_⟩
      rw [← Option.some.inj h, Int.toNat_natCast, Int.toNat_natCast]

/-- Of a text, characters before the one at `stop` have been printed, and the terminal now has this
rendition. -/
def Prints (codes : SgrCodes) (trunc : List UInt8) (attr : FepAttribute) (stop : Nat)
    (printed : List (UInt8 × FepSgrAttr)) (fep : Fep loc) (rendition : FepSgrAttr) : Prop :=
  ∃ cells, PrintedBefore loc trunc attr stop cells ∧ Shows codes fep rendition (printed ++ cells)

theorem Prints.mono {trunc : List UInt8} {attr : FepAttribute} {rendition : FepSgrAttr}
    {stop stop' : Nat} (h : Prints codes trunc attr stop printed fep rendition) (hle : stop ≤ stop') :
    Prints codes trunc attr stop' printed fep rendition := by
  obtain ⟨cells, hcells, hshows⟩ := h
  exact ⟨cells, hcells.mono hle, hshows⟩

theorem Prints.writeSubstring {trunc : List UInt8} {attr : FepAttribute} {rendition : FepSgrAttr}
    (hloc : loc.NoNewEscape) (htrunc : escape ∉ trunc) {first last : BitVec 32}
    (h : Prints codes trunc attr first.toNat printed fep rendition) (hlt : first < last)
    (hrendition : ∀ i, first.toNat ≤ i → i < last.toNat → rendition = charRendition attr i) :
    Prints codes trunc attr last.toNat printed (writeSubstring fep trunc first last) rendition := by
  unfold LibFep.writeSubstring
  cases hsub : substring loc trunc first.toInt last.toInt with
  | none => exact h.mono (Nat.le_of_lt hlt)
  | some p =>
    obtain ⟨cells, hcells, hshows⟩ := h
    obtain ⟨hle, rfl⟩ := substring_eq_some hlt hsub
    have hescape := hloc.wcsrtombs trunc _ trunc.length htrunc
      ((List.drop_sublist first.toNat _).trans (List.take_sublist last.toNat _))
    have hfits : Piece.Fits loc trunc attr ⟨first.toNat, last.toNat, rendition⟩ :=
      ⟨hlt, hle, hrendition⟩
    refine ⟨_, hcells.append_piece hfits, ?_⟩
    rw [← List.append_assoc]
    exact hshows.writeTty hescape

theorem Prints.setAttributes {trunc : List UInt8} {attr : FepAttribute} {stop : Nat}
    (hcodes : EnterCodes codes) {new : FepSgrAttr}
    (h : Prints codes trunc attr stop printed fep old) (hold : ValidSgrAttr old)
    (hnew : ValidSgrAttr new) (hclear : new = fepEmptyAttr ∨ ¬ Clears old new) :
    Prints codes trunc attr stop printed (outputSetAttributes fep new) new := by
  obtain ⟨cells, hcells, hshows⟩ := h
  exact ⟨cells, hcells, hshows.setAttributes hcodes hold hnew hclear⟩

/-- The indices of a range, as `_fep_output_string_with_attribute` cuts and orders them. -/
theorem toNat_cut (length first last : BitVec 32) :
    (if (if length < last then length else last) < (if length < first then length else first) then
        (if length < last then length else last) else (if length < first then length else first)).toNat =
      min length.toNat (min first.toNat last.toNat) ∧
    (if (if length < last then length else last) < (if length < first then length else first) then
        (if length < first then length else first) else (if length < last then length else last)).toNat =
      min length.toNat (max first.toNat last.toNat) := by
  have hmin (a b : BitVec 32) : (if a < b then a else b).toNat = min a.toNat b.toNat := by
    rw [apply_ite BitVec.toNat]
    simp only [BitVec.lt_def]
    split <;> omega
  have hmax (a b : BitVec 32) : (if a < b then b else a).toNat = max a.toNat b.toNat := by
    rw [apply_ite BitVec.toNat]
    simp only [BitVec.lt_def]
    split <;> omega
  constructor
  · rw [hmin, hmin, hmin]
    omega
  · rw [hmax, hmin, hmin]
    omega

/-- **A text is printed piece by piece**, each in the rendition of its range, and the terminal is left
without attributes. -/
theorem Prints.outputTruncated {trunc : List UInt8} (hcodes : EnterCodes codes)
    (hloc : loc.NoNewEscape) (htrunc : escape ∉ trunc) (h : Shows codes fep fepEmptyAttr printed)
    (attr : FepAttribute) :
    ∃ cells, PrintedAs loc trunc attr cells ∧
      Shows codes (outputTruncated fep trunc attr) fepEmptyAttr (printed ++ cells) := by
  have hstart : Prints codes trunc attr 0 printed fep fepEmptyAttr :=
    ⟨[], ⟨[], rfl, List.forall_mem_nil _, List.Pairwise.nil⟩, by rwa [List.append_nil]⟩
  suffices hall : ∃ stop, Prints codes trunc attr stop printed (LibFep.outputTruncated fep trunc attr)
      fepEmptyAttr by
    obtain ⟨stop, cells, hcells, hshows⟩ := hall
    exact ⟨cells, hcells.printedAs, hshows⟩
  unfold LibFep.outputTruncated
  extract_lets length index1 index2 startIndex endIndex decorated fep1 marked written fep2
  obtain ⟨hlo, hhi⟩ : startIndex.toNat =
      min length.toNat (min attr.startIndex.toNat attr.endIndex.toNat) ∧
      endIndex.toNat = min length.toNat (max attr.startIndex.toNat attr.endIndex.toNat) :=
    toNat_cut length attr.startIndex attr.endIndex
  -- before the range
  have hbefore : Prints codes trunc attr startIndex.toNat printed fep1 fepEmptyAttr := by
    unfold fep1
    split
    · next hpos =>
      refine hstart.writeSubstring hloc htrunc hpos.1 fun i _ hi => (if_neg ?_).symm
      rintro ⟨-, hmin, -⟩
      omega
    · exact hstart.mono (Nat.zero_le _)
  -- in the range
  have hrange : Prints codes trunc attr endIndex.toNat printed fep2 fepEmptyAttr := by
    unfold fep2
    split
    · next hlt =>
      have hlt' : startIndex.toNat < endIndex.toNat := hlt
      by_cases hdec : decorated
      · unfold written marked
        simp only [if_pos hdec]
        have hset := hbefore.setAttributes hcodes validSgrAttr_empty
          (validSgrAttr_sgrAttrFromAttribute attr) (Or.inr (not_clears_empty _))
        have hwrite := hset.writeSubstring hloc htrunc hlt fun i hi hi' => by
          refine (if_pos ⟨hdec, ?_, ?_⟩).symm
          · omega
          · omega
        have hback := hwrite.setAttributes hcodes (validSgrAttr_sgrAttrFromAttribute attr)
          validSgrAttr_empty (Or.inl rfl)
        obtain ⟨cells, -, hshows⟩ := hwrite
        rwa [hshows.attrTty]
      · unfold written marked
        simp only [if_neg hdec]
        exact hbefore.writeSubstring hloc htrunc hlt fun i _ _ => (if_neg fun hi => hdec hi.1).symm
    · exact hbefore.mono (by omega)
  -- behind the range
  split
  · next hlt =>
    have hlt' : endIndex.toNat < length.toNat := hlt
    refine ⟨_, hrange.writeSubstring hloc htrunc hlt fun i hi _ => (if_neg ?_).symm⟩
    rintro ⟨-, -, hmax⟩
    omega
  · exact ⟨_, hrange⟩

/-! ## Runs -/

inductive RenditionOp where
  | applyAttr (target : FepSgrAttr) (valid : ValidSgrAttr target)
  | string (str : List UInt8) (width : Int) (attr : FepAttribute)

def renditionStep (fep : Fep loc) : RenditionOp → Except Fault (Fep loc)
  | .applyAttr target _ => .ok (applyAttr fep target)
  | .string str width attr => outputStringWithAttribute fep str width attr

/-- The text of a call holds no ESC. -/
def RenditionOp.NoEscape : RenditionOp → Prop
  | .applyAttr _ _ => True
  | .string str _ _ => escape ∉ str

/-- The text of a call in the locale's encoding, cut to its width; `none` if it cannot be cut. -/
def truncated (loc : Locale) (str : List UInt8) (width : Int) : Option (List UInt8) :=
  (loc.strIconv str).bind (strtrunc loc · width)

/-- What may be printed for the text of a call: nothing if it cannot be cut. -/
def TextPrinted (loc : Locale) (str : List UInt8) (width : Int) (attr : FepAttribute)
    (cells : List (UInt8 × FepSgrAttr)) : Prop :=
  match truncated loc str width with
  | some trunc => PrintedAs loc trunc attr cells
  | none => cells = []

/-- What the terminal shows after a call. -/
def Renders (codes : SgrCodes) (fep : Fep loc) (op : RenditionOp) (fep' : Fep loc) : Prop :=
  (rendering codes fep').2.rendition = fep'.attr ∧
    match op with
    | .applyAttr target _ => (rendering codes fep').2.rendition = target
    | .string str width attr => ∃ cells,
      (rendering codes fep').2.printed = (rendering codes fep).2.printed ++ cells ∧
        TextPrinted loc str width attr cells

/-- Between two calls the terminal has the attributes of the server, which can be cleared. -/
def InStep (codes : SgrCodes) (fep : Fep loc) : Prop :=
  ValidSgrAttr fep.attr ∧ ∃ printed, Shows codes fep fep.attr printed

theorem renders_applyAttr (hcodes : EnterCodes codes) (h : InStep codes fep) {target : FepSgrAttr}
    (hvalid : ValidSgrAttr target) :
    Renders codes fep (.applyAttr target hvalid) (applyAttr fep target) ∧
      InStep codes (applyAttr fep target) := by
  obtain ⟨hattr, printed, hshows⟩ := h
  have happly := hshows.applyAttr hcodes hattr hvalid
  have hrendition := congrArg (·.2.rendition) happly.rendering
  unfold Renders InStep
  rw [attr_applyAttr]
  exact ⟨⟨hrendition, hrendition⟩, hvalid, printed, happly⟩

/-- A call that leaves the terminal without attributes, as it does the server. -/
theorem renders_of_shows (h : Shows codes fep fep.attr printed) {str : List UInt8} {width : Int}
    {attr : FepAttribute} {cells : List (UInt8 × FepSgrAttr)} {fep' : Fep loc}
    (hcells : TextPrinted loc str width attr cells) (hempty : fep'.attr = fepEmptyAttr)
    (hfinal : Shows codes fep' fepEmptyAttr (printed ++ cells)) :
    Renders codes fep (.string str width attr) fep' ∧ InStep codes fep' := by
  have hprinted : (rendering codes fep).2.printed = printed := congrArg (·.2.printed) h.rendering
  refine ⟨⟨?_, cells, ?_, hcells⟩, ?_⟩
  · exact (congrArg (·.2.rendition) hfinal.rendering).trans hempty.symm
  · rw [hprinted]
    exact congrArg (·.2.printed) hfinal.rendering
  · rw [InStep, hempty]
    exact ⟨validSgrAttr_empty, printed ++ cells, hfinal⟩

/-- Nothing is printed for an empty text. -/
theorem renders_nil (h : InStep codes fep) (width : Int) (attr : FepAttribute) :
    Renders codes fep (.string [] width attr) fep := by
  obtain ⟨-, printed, hshows⟩ := h
  refine ⟨congrArg (·.2.rendition) hshows.rendering, [], (List.append_nil _).symm, ?_⟩
  unfold TextPrinted
  split
  · exact .nil _ _ _
  · rfl

theorem renders_string (hcodes : EnterCodes codes) (hloc : loc.NoNewEscape) (h : InStep codes fep)
    {str : List UInt8} (hstr : escape ∉ str) {width : Int} {attr : FepAttribute} {fep' : Fep loc}
    (hok : outputStringWithAttribute fep str width attr = .ok fep') :
    Renders codes fep (.string str width attr) fep' ∧ InStep codes fep' := by
  by_cases hne : str = []
  · subst hne
    obtain rfl := Except.ok.inj hok
    exact ⟨renders_nil h width attr, h⟩
  obtain ⟨hattr, printed, hshows⟩ := h
  cases hlocal : loc.strIconv str with
  | none =>
    rw [outputStringWithAttribute, if_neg hne, hlocal] at hok
    exact absurd hok (by simp)
  | some local' =>
    obtain ⟨fep'', hok', hshown⟩ :=
      outputStringWithAttribute_of_converts fep hne (by rw [hlocal]; rfl) width attr
    obtain rfl := Except.ok.inj (hok'.symm.trans hok)
    have hempty : fep''.attr = fepEmptyAttr := hshown.attr.trans hshows.attrTty
    -- the attributes that are left from before are cleared
    have hclear : Shows codes { fep with ptybuf := [] } fep.attr printed :=
      ⟨hshows.rendering, hshows.attrTty, hshows.sgrCodes⟩
    have happly : Shows codes (applyAttr { fep with ptybuf := [] } fep.attrTty) fepEmptyAttr
        printed := by
      have htty : ValidSgrAttr fep.attrTty := hshows.attrTty ▸ validSgrAttr_empty
      have hset := hclear.applyAttr hcodes hattr htty
      exact (congrArg (Shows codes _ · printed) hshows.attrTty).mp hset
    rw [outputStringWithAttribute, if_neg hne, hlocal] at hok
    dsimp only at hok
    cases htrunc : strtrunc loc local' width with
    | none =>
      rw [htrunc] at hok
      have hcells : TextPrinted loc str width attr [] := by
        simp [TextPrinted, truncated, hlocal, htrunc]
      refine renders_of_shows hshows hcells hempty ?_
      rw [List.append_nil, ← Except.ok.inj hok]
      exact happly
    | some trunc =>
      rw [htrunc] at hok
      obtain ⟨cells, hprinted, hfinal⟩ := Prints.outputTruncated hcodes hloc
        (escape_not_mem_of_strtrunc hloc hstr hlocal htrunc) happly attr
      have hcells : TextPrinted loc str width attr cells := by
        simpa [TextPrinted, truncated, hlocal, htrunc] using hprinted
      refine renders_of_shows hshows hcells hempty ?_
      rw [← Except.ok.inj hok]
      exact hfinal

theorem renditionStep_renders (hcodes : EnterCodes codes) (hloc : loc.NoNewEscape)
    (h : InStep codes fep) {op : RenditionOp} (hop : op.NoEscape) {fep' : Fep loc}
    (hok : renditionStep fep op = .ok fep') : Renders codes fep op fep' ∧ InStep codes fep' := by
  cases op with
  | applyAttr target valid =>
    rw [← Except.ok.inj hok]
    exact renders_applyAttr hcodes h valid
  | string str width attr => exact renders_string hcodes hloc h hop hok

/-- The server without attributes. -/
def renditionStart (loc : Locale) (codes : SgrCodes) : Fep loc :=
  { Fep.new loc with sgrCodes := codes }

theorem inStep_start (loc : Locale) (codes : SgrCodes) : InStep codes (renditionStart loc codes) :=
  ⟨validSgrAttr_empty, [], rfl, rfl, rfl⟩

/-- **The rendition of the terminal is the server's `attr`** after each call of a run, and each character
of a text is printed in the rendition of its range, if the texts hold no ESC. -/
theorem rendition_follows (codes : SgrCodes) (hcodes : EnterCodes codes) (hloc : loc.NoNewEscape)
    (ops : List RenditionOp) (hops : ∀ op ∈ ops, op.NoEscape) :
    ∀ x ∈ okSteps renditionStep (renditionStart loc codes) ops, Renders codes x.1 x.2.1 x.2.2 := by
  have hinv : ∀ x ∈ okSteps renditionStep (renditionStart loc codes) ops,
      x.2.1 ∈ ops ∧ InStep codes x.1 :=
    inv_of_mem_okSteps (fun _ op hop _ hs hok =>
      (renditionStep_renders hcodes hloc hs (hops op hop) hok).2) (inStep_start loc codes)
  intro x hx
  obtain ⟨hop, hstep⟩ := hinv x hx
  exact (renditionStep_renders hcodes hloc hstep (hops _ hop) (step_of_mem_okSteps hx)).1

theorem enterCodes_xterm : EnterCodes xtermCodes where
  pos i hi := by revert hi; cases i <;> decide
  distinct i j _ _ h := by cases i <;> cases j <;> first | rfl | exact absurd h (by decide)
  not_foreground i hi := by revert hi; cases i <;> decide
  not_background i hi := by revert hi; cases i <;> decide

/-- The text `ab` with a bold `b`, and then underlined red. -/
def boldRun : List RenditionOp :=
  [.string [0x61, 0x62] 80 ⟨fepAttrTypeBold, 1, 1, 2⟩,
    .applyAttr ⟨fepSgrAttrUnderline, 31, 0⟩ ⟨by decide, Or.inr (by decide), Or.inl rfl⟩]

theorem rendition_follows_boldRun :
    (∀ x ∈ okSteps renditionStep (renditionStart .c xtermCodes) boldRun,
      Renders xtermCodes x.1 x.2.1 x.2.2) ∧
    (okSteps renditionStep (renditionStart .c xtermCodes) boldRun).length = 2 := by
  constructor
  · refine rendition_follows xtermCodes enterCodes_xterm noNewEscape_c boldRun ?_
    refine List.forall_mem_cons.mpr ⟨?_, List.forall_mem_singleton.mpr trivial⟩
    show escape ∉ _
    decide
  · decide +kernel

/-- The text ESC `[31m`. -/
def redText : RenditionOp := .string [0x1B, 0x5B, 0x33, 0x31, 0x6D] 80 ⟨fepAttrTypeNone, 0, 0, 0⟩

/-- The terminal takes the bytes of a text as it takes any others. -/
theorem not_renders_redText :
    ¬ ∀ x ∈ okSteps renditionStep (renditionStart .c xtermCodes) [redText],
      Renders xtermCodes x.1 x.2.1 x.2.2 := by
  intro h
  have hred : (renditionStep (renditionStart .c xtermCodes) redText).map
      (fun fep => ((rendering xtermCodes fep).2.rendition, fep.attr)) =
        .ok (⟨0, 31, 0⟩, fepEmptyAttr) := by decide +kernel
  cases hstep : renditionStep (renditionStart .c xtermCodes) redText with
  | error fault =>
    rw [hstep] at hred
    exact absurd hred (by simp [Except.map])
  | ok fep =>
    rw [hstep] at hred
    obtain ⟨hrendition, hattr⟩ := Prod.mk.inj (Except.ok.inj hred)
    have hmem : (renditionStart .c xtermCodes, redText, fep) ∈
        okSteps renditionStep (renditionStart .c xtermCodes) [redText] := by
      rw [okSteps, hstep]
      exact List.mem_cons_self
    have hfollows := (h _ hmem).1
    rw [hrendition, hattr] at hfollows
    exact absurd hfollows (by decide)

end LibFep
