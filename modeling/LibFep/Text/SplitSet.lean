import LibFep.Lib.Segments
import LibFep.Text.SplitJoin

/-!
# LibFep — splitting at a set of bytes

`_fep_strsplit_set` of `libfep/string.c`. `search_strpbrk` measures the run of delimiters with `strspn` at
the start of the string that it searches, and not at the delimiter that it has found: a run that is not at
the start is found twice, and an empty token comes in between.

* **`strsplitSet_gap`** — the tokens of a string that is cut around its first run of delimiters.
* **`filter_strsplitSet`** — the tokens that are not empty are the longest parts without delimiters.
* **`splitsAtRuns_iff`** — the strings in which each run of delimiters is one separator.
-/

namespace LibFep

open Lib

/-! ## `_fep_strsplit_set` -/

/-- The first place of a byte of the set. -/
def strpbrk (s accept : List UInt8) : Option Nat := s.findIdx? (· ∈ accept)

/-- The length of the run of bytes of the set at the start. -/
def strspn (s accept : List UInt8) : Nat := (s.takeWhile (· ∈ accept)).length

/-- `search_strpbrk`. The run is that at the start of `str`, not of what `strpbrk` has found. -/
def searchStrpbrk (delimiter : List UInt8) : Search where
  find str := (strpbrk str delimiter).map fun p => (p, p + strspn str delimiter)
  progress := by
    intro str p next hfind hne
    obtain ⟨p', hp', heq⟩ := Option.map_eq_some_iff.mp hfind
    obtain ⟨rfl, rfl⟩ := Prod.mk.inj heq
    obtain ⟨b, str, rfl⟩ := List.exists_cons_of_ne_nil hne
    by_cases hb : b ∈ delimiter
    · have hspan : 0 < strspn (b :: str) delimiter := by simp [strspn, hb]
      omega
    · have hfound : 0 < p' := by
        rw [Nat.pos_iff_ne_zero]
        rintro rfl
        simp [strpbrk, List.findIdx?_cons, hb] at hp'
      omega

def strsplitSet (str delimiter : List UInt8) : List (List UInt8) :=
  strsplitFull (searchStrpbrk delimiter) str

/-- Not one of the delimiters. -/
def isOther (delimiter : List UInt8) (b : UInt8) : Bool := b ∉ delimiter

variable {delimiter : List UInt8}

theorem isOther_eq_true_iff {b : UInt8} : isOther delimiter b = true ↔ b ∉ delimiter := by
  simp [isOther]

theorem isOther_eq_false_iff {b : UInt8} : isOther delimiter b = false ↔ b ∈ delimiter := by
  simp [isOther]

theorem strpbrk_of_forall {s : List UInt8} (h : ∀ b ∈ s, isOther delimiter b = true) :
    strpbrk s delimiter = none := by
  apply List.findIdx?_eq_none_iff.mpr
  intro b hb
  simpa [isOther] using h b hb

/-- The first delimiter. -/
theorem strpbrk_append {a : List UInt8} (ha : ∀ b ∈ a, isOther delimiter b = true) {d : UInt8}
    (hd : isOther delimiter d = false) (u : List UInt8) :
    strpbrk (a ++ d :: u) delimiter = some a.length := by
  have hnone : a.findIdx? (· ∈ delimiter) = none := strpbrk_of_forall ha
  rw [strpbrk, List.findIdx?_append, hnone]
  simp [List.findIdx?_cons, isOther_eq_false_iff.mp hd]

theorem strspn_append {r t : List UInt8} (hr : ∀ b ∈ r, isOther delimiter b = false)
    (ht : ∀ b ∈ t.head?, isOther delimiter b = true) : strspn (r ++ t) delimiter = r.length := by
  have hnone : t.takeWhile (· ∈ delimiter) = [] := by
    cases t with
    | nil => rfl
    | cons b t => exact List.takeWhile_cons_of_neg (by simpa [isOther] using ht b rfl)
  rw [strspn, List.takeWhile_append_of_pos fun b hb => by simpa [isOther] using hr b hb, hnone,
    List.append_nil]

/-! ## The loop -/

theorem find_searchStrpbrk (delimiter s : List UInt8) :
    (searchStrpbrk delimiter).find s =
      (strpbrk s delimiter).map fun p => (p, p + strspn s delimiter) := rfl

theorem find_of_forall {s : List UInt8} (h : ∀ b ∈ s, isOther delimiter b = true) :
    (searchStrpbrk delimiter).find s = none := by
  rw [find_searchStrpbrk, strpbrk_of_forall h]
  rfl

/-- The token before the first delimiter `d`. The next round starts behind as many bytes as there are
delimiters at the start of the string. -/
theorem strsplitLoop_append {a : List UInt8} (ha : ∀ b ∈ a, isOther delimiter b = true) {d : UInt8}
    (hd : isOther delimiter d = false) (u : List UInt8) {n : Nat}
    (hn : strspn (a ++ d :: u) delimiter = n) :
    strsplitLoop (searchStrpbrk delimiter) (a ++ d :: u) =
      (a :: (strsplitLoop (searchStrpbrk delimiter) ((d :: u).drop n)).1,
        (strsplitLoop (searchStrpbrk delimiter) ((d :: u).drop n)).2) := by
  have hfind : (searchStrpbrk delimiter).find (a ++ d :: u) = some (a.length, a.length + n) := by
    rw [find_searchStrpbrk, strpbrk_append ha hd u, hn]
    rfl
  rw [strsplitLoop_of_find_some hfind (by simp), List.take_left, ← List.drop_drop, List.drop_left]

/-- A run of delimiters at the start gives an empty token, and the run is passed over. -/
theorem strsplitLoop_run {r t : List UInt8} (hne : r ≠ [])
    (hr : ∀ b ∈ r, isOther delimiter b = false) (ht : ∀ b ∈ t.head?, isOther delimiter b = true) :
    strsplitLoop (searchStrpbrk delimiter) (r ++ t) =
      ([] :: (strsplitLoop (searchStrpbrk delimiter) t).1,
        (strsplitLoop (searchStrpbrk delimiter) t).2) := by
  have hspan := strspn_append hr ht
  obtain ⟨d, r, rfl⟩ := List.exists_cons_of_ne_nil hne
  have hloop := strsplitLoop_append (List.forall_mem_nil _) (hr d List.mem_cons_self) (r ++ t) hspan
  rwa [← List.cons_append, List.drop_left] at hloop

/-- A run behind other bytes gives their token, and is not passed over: it gives an empty one as well. -/
theorem strsplitLoop_segment {a r t : List UInt8} (hnil : a ≠ [])
    (ha : ∀ b ∈ a, isOther delimiter b = true) (hne : r ≠ [])
    (hr : ∀ b ∈ r, isOther delimiter b = false) (ht : ∀ b ∈ t.head?, isOther delimiter b = true) :
    strsplitLoop (searchStrpbrk delimiter) (a ++ (r ++ t)) =
      (a :: [] :: (strsplitLoop (searchStrpbrk delimiter) t).1,
        (strsplitLoop (searchStrpbrk delimiter) t).2) := by
  have hhead : ∀ b ∈ (a ++ (r ++ t)).head?, isOther delimiter b = true := by
    obtain ⟨c, a, rfl⟩ := List.exists_cons_of_ne_nil hnil
    intro b hb
    obtain rfl : c = b := Option.some.inj hb
    exact ha c List.mem_cons_self
  have hspan : strspn (a ++ (r ++ t)) delimiter = 0 := strspn_append (List.forall_mem_nil _) hhead
  have hrun := strsplitLoop_run hne hr ht
  obtain ⟨d, r, rfl⟩ := List.exists_cons_of_ne_nil hne
  have hloop := strsplitLoop_append ha (hr d List.mem_cons_self) (r ++ t) hspan
  rw [List.drop_zero, ← List.cons_append, hrun] at hloop
  exact hloop

/-! ## The tokens -/

theorem strsplitSet_of_forall {s : List UInt8} (h : ∀ b ∈ s, isOther delimiter b = true) :
    strsplitSet s delimiter = if s = [] then [] else [s] :=
  strsplitFull_of_find_none (find_of_forall h)

/-- The tokens of a string that is cut around its first run of delimiters. -/
theorem strsplitSet_gap {a r t : List UInt8} (ha : ∀ b ∈ a, isOther delimiter b = true) (hne : r ≠ [])
    (hr : ∀ b ∈ r, isOther delimiter b = false) (ht : ∀ b ∈ t.head?, isOther delimiter b = true) :
    strsplitSet (a ++ (r ++ t)) delimiter =
      if a = [] then [] :: strsplitSet t delimiter else a :: [] :: strsplitSet t delimiter := by
  by_cases hnil : a = []
  · rw [if_pos hnil, hnil, List.nil_append]
    exact strsplitFull_of_loop [[]] (strsplitLoop_run hne hr ht)
  · rw [if_neg hnil]
    exact strsplitFull_of_loop [a, []] (strsplitLoop_segment hnil ha hne hr ht)

/-- **The tokens that are not empty are the longest parts without delimiters**, in order. Induction along
the runs of delimiters. -/
theorem filter_strsplitSet (s delimiter : List UInt8) :
    (strsplitSet s delimiter).filter (fun token => !token.isEmpty) = segments (isOther delimiter) s := by
  induction s using gap_induction (isOther delimiter) with
  | segment s hs =>
    rw [strsplitSet_of_forall hs]
    by_cases hnil : s = []
    · simp [hnil]
    · rw [if_neg hnil, segments_of_forall hnil hs]
      simp [hnil]
  | gap a r t ha hne hr ht ih =>
    rw [strsplitSet_gap ha hne hr ht, segments_append_gap a hne hr]
    by_cases hnil : a = []
    · simp [hnil, ih]
    · rw [if_neg hnil, segments_of_forall hnil ha, ← ih]
      simp [hnil]

/-- No token has a delimiter in it. -/
theorem isOther_of_mem_strsplitSet (s delimiter : List UInt8) :
    ∀ token ∈ strsplitSet s delimiter, ∀ b ∈ token, isOther delimiter b = true := by
  induction s using gap_induction (isOther delimiter) with
  | segment s hs =>
    rw [strsplitSet_of_forall hs]
    by_cases hnil : s = []
    · simp [hnil]
    · rw [if_neg hnil]
      exact List.forall_mem_singleton.mpr hs
  | gap a r t ha hne hr ht ih =>
    have hempty : ∀ token ∈ [] :: strsplitSet t delimiter, ∀ b ∈ token, isOther delimiter b = true :=
      List.forall_mem_cons.mpr ⟨List.forall_mem_nil _, ih⟩
    rw [strsplitSet_gap ha hne hr ht]
    by_cases hnil : a = []
    · rwa [if_pos hnil]
    · rw [if_neg hnil]
      exact List.forall_mem_cons.mpr ⟨ha, hempty⟩

/-! ## One separator for each run -/

/-- The split stores a vector that ends in `NULL` in the slots it allocates, each longest run of delimiters
is counted as one separator, no token has a delimiter in it, only the first may be empty, and those that
are not are the longest parts without delimiters. -/
structure SplitsAtRuns (s delimiter : List UInt8) : Prop where
  slots : ∃ unused, strsplitSlots (searchStrpbrk delimiter) s =
    .ok ((strsplitSet s delimiter).map some ++ none :: unused) ∧
    ((strsplitSet s delimiter).map some ++ none :: unused).length =
      countDelimiters (searchStrpbrk delimiter) s + 2
  separators : countDelimiters (searchStrpbrk delimiter) s =
    (segments (fun b => !isOther delimiter b) s).length
  others : ∀ token ∈ strsplitSet s delimiter, ∀ b ∈ token, b ∉ delimiter
  nonempty : ∀ token ∈ (strsplitSet s delimiter).tail, token ≠ []
  tokens : (strsplitSet s delimiter).filter (fun token => !token.isEmpty) =
    segments (isOther delimiter) s

/-- The run of delimiters at the start, and what is behind it. -/
theorem exists_eq_run_append (s delimiter : List UInt8) :
    ∃ r, s = r ++ s.dropWhile (· ∈ delimiter) ∧ (∀ b ∈ r, isOther delimiter b = false) ∧
      ∀ b ∈ (s.dropWhile (· ∈ delimiter)).head?, isOther delimiter b = true := by
  refine ⟨s.takeWhile (· ∈ delimiter), List.takeWhile_append_dropWhile.symm, ?_, ?_⟩
  · intro b hb
    have hmem := List.mem_takeWhile_imp hb
    simpa [isOther] using hmem
  · intro b hb
    have hhead := List.head?_dropWhile_not (· ∈ delimiter) s
    rw [Option.mem_def.mp hb] at hhead
    simpa [isOther] using hhead

/-- The run at the start adds an empty token. -/
theorem strsplitSet_run {r t : List UInt8} (hr : ∀ b ∈ r, isOther delimiter b = false)
    (ht : ∀ b ∈ t.head?, isOther delimiter b = true) :
    strsplitSet (r ++ t) delimiter =
      if r = [] then strsplitSet t delimiter else [] :: strsplitSet t delimiter := by
  by_cases hne : r = []
  · rw [if_pos hne, hne, List.nil_append]
  · rw [if_neg hne]
    exact strsplitSet_gap (List.forall_mem_nil _) hne hr ht

/-- Behind a byte that is no delimiter, a run adds an empty token that is not the first one. -/
theorem nil_mem_tail_strsplitSet {t : List UInt8} (ht : ∀ b ∈ t.head?, isOther delimiter b = true)
    {d : UInt8} (hmem : d ∈ t) (hd : isOther delimiter d = false) :
    [] ∈ (strsplitSet t delimiter).tail := by
  rcases exists_eq_append_gap (isOther delimiter) t with hall | ⟨a, r, u, rfl, ha, hne, hr, hu⟩
  · exact absurd ((hall d hmem).symm.trans hd) (by decide)
  · have hnil : a ≠ [] := by
      rintro rfl
      obtain ⟨c, r, rfl⟩ := List.exists_cons_of_ne_nil hne
      exact absurd ((ht c rfl).symm.trans (hr c List.mem_cons_self)) (by decide)
    rw [strsplitSet_gap ha hne hr hu, if_neg hnil]
    exact List.mem_cons_self

theorem nil_mem_tail_of_run {s : List UInt8} {d : UInt8} (hmem : d ∈ s.dropWhile (· ∈ delimiter))
    (hd : isOther delimiter d = false) : [] ∈ (strsplitSet s delimiter).tail := by
  obtain ⟨r, hs, hr, ht⟩ := exists_eq_run_append s delimiter
  have htail := nil_mem_tail_strsplitSet ht hmem hd
  rw [hs, strsplitSet_run hr ht]
  split
  · exact htail
  · exact List.mem_of_mem_tail htail

/-- A run at the start and no other: there is one separator, or none, and one token behind it. -/
theorem splitsAtRuns_of_run {r t : List UInt8} (hr : ∀ b ∈ r, isOther delimiter b = false)
    (ht : ∀ b ∈ t, isOther delimiter b = true) : SplitsAtRuns (r ++ t) delimiter where
  slots := strsplitSlots_eq _ _
  separators := by
    have hnone : segments (fun b => !isOther delimiter b) t = [] :=
      segments_of_forall_not fun b hb => by simp [ht b hb]
    have hhead : ∀ b ∈ t.head?, isOther delimiter b = true := fun b hb => ht b (List.mem_of_mem_head? hb)
    rw [countDelimiters_eq]
    by_cases hne : r = []
    · rw [hne, List.nil_append, strsplitLoop_of_find_none (find_of_forall ht), hnone, List.length_nil]
    · rw [strsplitLoop_run hne hr hhead, strsplitLoop_of_find_none (find_of_forall ht),
        segments_append_segment hne (fun b hb => by simp [hr b hb]) fun b hb => by simp [hhead b hb],
        hnone]
      rfl
  others token htoken b hb :=
    isOther_eq_true_iff.mp (isOther_of_mem_strsplitSet _ delimiter token htoken b hb)
  nonempty := by
    have htokens : ∀ token ∈ strsplitSet t delimiter, token ≠ [] := by
      rw [strsplitSet_of_forall ht]
      split
      · exact List.forall_mem_nil _
      · next hnil => exact List.forall_mem_singleton.mpr hnil
    rw [strsplitSet_run hr fun b hb => ht b (List.mem_of_mem_head? hb)]
    split
    · intro token htoken
      exact htokens token (List.mem_of_mem_tail htoken)
    · exact htokens
  tokens := filter_strsplitSet _ delimiter

/-- **Each run of delimiters is one separator** exactly if no delimiter stands behind another byte. -/
theorem splitsAtRuns_iff (s delimiter : List UInt8) :
    SplitsAtRuns s delimiter ↔ ∀ b ∈ s.dropWhile (· ∈ delimiter), b ∉ delimiter := by
  constructor
  · intro h b hb hmem
    have hnil := nil_mem_tail_of_run hb (isOther_eq_false_iff.mpr hmem)
    exact h.nonempty [] hnil rfl
  · intro h
    obtain ⟨r, hs, hr, -⟩ := exists_eq_run_append s delimiter
    rw [hs]
    exact splitsAtRuns_of_run hr fun b hb => isOther_eq_true_iff.mpr (h b hb)

/-- `a,b` at a comma: one run of delimiters, and an empty token in between. -/
theorem not_splitsAtRuns_comma : ¬ SplitsAtRuns [0x61, 0x2C, 0x62] [0x2C] := by
  intro h
  have hnil := @nil_mem_tail_of_run [0x2C] [0x61, 0x2C, 0x62] 0x2C (by decide) (by decide)
  exact h.nonempty [] hnil rfl

end LibFep
