import LibFep.Text.Split

/-!
# LibFep — what is split and joined again

`_fep_strsplit` and `_fep_strjoinv` of `libfep/string.c` as each other's inverse, for any delimiter. The
loop that counts the delimiters decides how many slots are allocated, and the one that copies the tokens
leaves out an empty token at the end.

* **`strsplitSlots_eq`** — the tokens and a `NULL` fit the slots.
* **`splitsAndJoins_iff`** — the strings whose tokens join to them.
* **`strsplit_strjoinv_iff`** — the vectors that are split again.
-/

namespace LibFep

open Lib

/-! ## The slots -/

/-- `n_delimiters`. -/
def countDelimiters (search : Search) (p : List UInt8) : Nat :=
  match _ : search.find p with
  | some (q, next) => if _ : q < p.length then countDelimiters search (p.drop next) + 1 else 0
  | none => 0
  termination_by p.length
  decreasing_by
    have hne : p ≠ [] := List.ne_nil_of_length_pos (Nat.zero_lt_of_lt ‹q < p.length›)
    have hnext := search.progress ‹_› hne
    rw [List.length_drop]
    omega

/-- `*r++ = token` for one token after the other. -/
def storeTokens (slots : List (Option (List UInt8))) (r : Nat) :
    List (List UInt8) → Except Fault (List (Option (List UInt8)))
  | [] => .ok slots
  | token :: tokens =>
    if r < slots.length then storeTokens (slots.set r (some token)) (r + 1) tokens
    else .error .badAccess

/-- The vector that `_fep_strsplit_full` returns, with a slot that holds `NULL` as `none`. -/
def strsplitSlots (search : Search) (str : List UInt8) :
    Except Fault (List (Option (List UInt8))) :=
  storeTokens (List.replicate (countDelimiters search str + 2) none) 0 (strsplitFull search str)

/-- The two loops find the same delimiters. -/
theorem countDelimiters_eq (search : Search) (p : List UInt8) :
    countDelimiters search p = (strsplitLoop search p).1.length := by
  fun_induction countDelimiters search p with
  | case1 p q next hfind hq ih =>
    rw [strsplitLoop_of_find_some hfind hq, ih]
    rfl
  | case2 p q next hfind hq =>
    rw [strsplitLoop_of_find_end hfind hq]
    rfl
  | case3 p hnone =>
    rw [strsplitLoop_of_find_none hnone]
    rfl

theorem length_strsplitFull_le (search : Search) (str : List UInt8) :
    (strsplitFull search str).length ≤ countDelimiters search str + 1 := by
  rw [countDelimiters_eq, strsplitFull]
  obtain ⟨tokens, rest⟩ := strsplitLoop search str
  by_cases hrest : rest = [] <;> simp [hrest]

/-- The tokens are stored behind those that are there. -/
theorem storeTokens_eq (stored tokens : List (List UInt8)) {free : Nat} (h : tokens.length ≤ free) :
    storeTokens (stored.map some ++ List.replicate free none) stored.length tokens =
      .ok ((stored ++ tokens).map some ++ List.replicate (free - tokens.length) none) := by
  induction tokens generalizing stored free with
  | nil => simp [storeTokens]
  | cons token tokens ih =>
    obtain ⟨free, rfl⟩ := Nat.exists_eq_add_of_le' (show 1 ≤ free from Nat.le_trans (by simp) h)
    rw [List.length_cons] at h
    have hset : (stored.map some ++ List.replicate (free + 1) none).set stored.length (some token) =
        (stored ++ [token]).map some ++ List.replicate free none := by
      rw [List.set_append_right _ _ (by simp), List.length_map, Nat.sub_self, List.replicate_succ]
      simp
    have hnext := ih (stored ++ [token]) (show tokens.length ≤ free by omega)
    rw [List.length_append] at hnext
    rw [storeTokens, if_pos (by simp), hset]
    refine hnext.trans ?_
    rw [List.append_assoc, List.length_cons]
    rw [show free + 1 - (tokens.length + 1) = free - tokens.length from by omega]
    rfl

/-- **The tokens and a `NULL` behind them fit the slots** that are allocated. -/
theorem strsplitSlots_eq (search : Search) (str : List UInt8) :
    ∃ unused, strsplitSlots search str =
      .ok ((strsplitFull search str).map some ++ none :: unused) ∧
      ((strsplitFull search str).map some ++ none :: unused).length =
        countDelimiters search str + 2 := by
  have hlen := length_strsplitFull_le search str
  have hstore := storeTokens_eq [] (strsplitFull search str)
    (show (strsplitFull search str).length ≤ countDelimiters search str + 2 by omega)
  refine ⟨List.replicate (countDelimiters search str + 1 - (strsplitFull search str).length) none,
    ?_, ?_⟩
  · rw [← List.replicate_succ]
    refine hstore.trans ?_
    rw [show countDelimiters search str + 1 - (strsplitFull search str).length + 1 =
      countDelimiters search str + 2 - (strsplitFull search str).length from by omega]
    rfl
  · simp only [List.length_append, List.length_map, List.length_cons, List.length_replicate]
    omega

/-! ## The cuts -/

/-- The delimiter starts at `q`, and nowhere before. -/
structure FirstAt (delimiter s : List UInt8) (q : Nat) : Prop where
  here : delimiter <+: s.drop q
  first : ∀ i < q, ¬ delimiter <+: s.drop i

theorem strstr_eq_none_iff {delimiter : List UInt8} (hne : delimiter ≠ []) {s : List UInt8} :
    strstr delimiter s = none ↔ ∀ i, ¬ delimiter <+: s.drop i := by
  induction s with
  | nil => simp [strstr, hne]
  | cons b s ih =>
    rw [strstr]
    split
    · next hpre => exact iff_of_false (by simp) fun h => h 0 hpre
    · next hpre =>
      rw [Option.map_eq_none_iff, ih]
      constructor
      · intro h i
        cases i with
        | zero => exact hpre
        | succ i => exact h i
      · exact fun h i => h (i + 1)

theorem strstr_eq_some {delimiter : List UInt8} (hne : delimiter ≠ []) {s : List UInt8} {q : Nat}
    (h : strstr delimiter s = some q) : FirstAt delimiter s q := by
  induction s generalizing q with
  | nil => exact absurd h (by simp [strstr, hne])
  | cons b s ih =>
    rw [strstr] at h
    split at h
    · next hpre =>
      obtain rfl := Option.some.inj h
      exact ⟨hpre, fun i hi => absurd hi (Nat.not_lt_zero i)⟩
    · next hpre =>
      obtain ⟨q, hq, rfl⟩ := Option.map_eq_some_iff.mp h
      obtain ⟨hhere, hfirst⟩ := ih hq
      refine ⟨hhere, ?_⟩
      intro i hi
      cases i with
      | zero => exact hpre
      | succ i => exact hfirst i (Nat.lt_of_succ_lt_succ hi)

theorem FirstAt.unique {delimiter s : List UInt8} {q q' : Nat} (h : FirstAt delimiter s q)
    (h' : FirstAt delimiter s q') : q = q' := by
  rcases Nat.lt_trichotomy q q' with hlt | heq | hlt
  · exact absurd h.here (h'.first q hlt)
  · exact heq
  · exact absurd h'.here (h.first q' hlt)

theorem strstr_eq_some_iff {delimiter : List UInt8} (hne : delimiter ≠ []) {s : List UInt8}
    {q : Nat} : strstr delimiter s = some q ↔ FirstAt delimiter s q := by
  refine ⟨strstr_eq_some hne, ?_⟩
  intro h
  cases hfind : strstr delimiter s with
  | none => exact absurd h.here ((strstr_eq_none_iff hne).mp hfind q)
  | some q' => exact congrArg some ((strstr_eq_some hne hfind).unique h)

variable {delimiter : List UInt8}

theorem find_searchStrstr (hne : delimiter ≠ []) (s : List UInt8) :
    (searchStrstr delimiter hne).find s =
      (strstr delimiter s).map fun q => (q, q + delimiter.length) := rfl

/-- A string without the delimiter is what is left. -/
theorem strsplitLoop_of_none (hne : delimiter ≠ []) {s : List UInt8}
    (h : ∀ i, ¬ delimiter <+: s.drop i) :
    strsplitLoop (searchStrstr delimiter hne) s = ([], s) := by
  have hfind : (searchStrstr delimiter hne).find s = none := by
    rw [find_searchStrstr, (strstr_eq_none_iff hne).mpr h]
    rfl
  exact strsplitLoop_of_find_none hfind

/-- The token before the first delimiter. -/
theorem strsplitLoop_of_firstAt (hne : delimiter ≠ []) {a t : List UInt8}
    (h : FirstAt delimiter (a ++ (delimiter ++ t)) a.length) :
    strsplitLoop (searchStrstr delimiter hne) (a ++ (delimiter ++ t)) =
      (a :: (strsplitLoop (searchStrstr delimiter hne) t).1,
        (strsplitLoop (searchStrstr delimiter hne) t).2) := by
  have hfind : (searchStrstr delimiter hne).find (a ++ (delimiter ++ t)) =
      some (a.length, a.length + delimiter.length) := by
    rw [find_searchStrstr, (strstr_eq_some_iff hne).mpr h]
    rfl
  have hinside : a.length < (a ++ (delimiter ++ t)).length := by
    have hpos := List.length_pos_iff.mpr hne
    simp only [List.length_append]
    omega
  rw [strsplitLoop_of_find_some hfind hinside, List.take_left, ← List.drop_drop, List.drop_left,
    List.drop_left]

/-- A string has no delimiter, or is cut at the first one. -/
theorem cut_cases (hne : delimiter ≠ []) (s : List UInt8) :
    (∀ i, ¬ delimiter <+: s.drop i) ∨
      ∃ a t, s = a ++ (delimiter ++ t) ∧ FirstAt delimiter (a ++ (delimiter ++ t)) a.length ∧
        t.length < s.length := by
  cases hfind : strstr delimiter s with
  | none => exact Or.inl ((strstr_eq_none_iff hne).mp hfind)
  | some q =>
    have hfirst := strstr_eq_some hne hfind
    obtain ⟨t, ht⟩ := hfirst.here
    have hpos := List.length_pos_iff.mpr hne
    have hlen := congrArg List.length ht
    rw [List.length_append, List.length_drop] at hlen
    have hs : s = s.take q ++ (delimiter ++ t) := by rw [ht, List.take_append_drop]
    have hq : (s.take q).length = q := List.length_take_of_le (by omega)
    refine Or.inr ⟨s.take q, t, hs, ?_, by omega⟩
    rw [← hs, hq]
    exact hfirst

/-! ## Joining the tokens -/

theorem strjoinv_cons (delimiter str : List UInt8) {strv : List (List UInt8)} (h : strv ≠ []) :
    strjoinv delimiter (str :: strv) = str ++ (delimiter ++ strjoinv delimiter strv) := by
  cases strv with
  | nil => exact absurd rfl h
  | cons str' strv => rfl

theorem strjoinv_append_nil (delimiter : List UInt8) {strv : List (List UInt8)} (h : strv ≠ []) :
    strjoinv delimiter (strv ++ [[]]) = strjoinv delimiter strv ++ delimiter := by
  induction strv with
  | nil => exact absurd rfl h
  | cons str strv ih =>
    rw [List.cons_append, strjoinv_cons _ _ (by simp)]
    by_cases hnil : strv = []
    · subst hnil
      simp [strjoinv]
    · rw [ih hnil, strjoinv_cons _ _ hnil]
      simp

/-- The tokens with what is left behind them, empty or not, join to the string. Induction on the cuts. -/
theorem strjoinv_loop (hne : delimiter ≠ []) (s : List UInt8) :
    strjoinv delimiter ((strsplitLoop (searchStrstr delimiter hne) s).1 ++
      [(strsplitLoop (searchStrstr delimiter hne) s).2]) = s := by
  induction hlen : s.length using Nat.strong_induction_on generalizing s with
  | _ n ih =>
    rcases cut_cases hne s with hnone | ⟨a, t, rfl, hfirst, hlt⟩
    · rw [strsplitLoop_of_none hne hnone]
      rfl
    · rw [strsplitLoop_of_firstAt hne hfirst, List.cons_append, strjoinv_cons _ _ (by simp),
        ih t.length (hlen ▸ hlt) t rfl]

/-- A string that contains another one has it at a place where there is room for it. -/
theorem exists_drop_of_isInfix {l : List UInt8} (h : delimiter <:+: l) :
    ∃ i, i + delimiter.length ≤ l.length ∧ delimiter <+: l.drop i := by
  obtain ⟨front, behind, rfl⟩ := h
  refine ⟨front.length, ?_, behind, ?_⟩
  · simp only [List.length_append]
    omega
  · rw [List.append_assoc, List.drop_left]

/-- Neither a token of the loop nor what it leaves contains the delimiter. -/
theorem not_isInfix_of_mem_strsplitLoop (hne : delimiter ≠ []) (s : List UInt8) :
    ∀ token ∈ (strsplitLoop (searchStrstr delimiter hne) s).1 ++
      [(strsplitLoop (searchStrstr delimiter hne) s).2], ¬ delimiter <:+: token := by
  induction hlen : s.length using Nat.strong_induction_on generalizing s with
  | _ n ih =>
    rcases cut_cases hne s with hnone | ⟨a, t, rfl, hfirst, hlt⟩
    · rw [strsplitLoop_of_none hne hnone]
      intro token htoken h
      obtain rfl : token = s := by simpa using htoken
      obtain ⟨i, -, hi⟩ := exists_drop_of_isInfix h
      exact hnone i hi
    · rw [strsplitLoop_of_firstAt hne hfirst, List.cons_append]
      intro token htoken
      rcases List.mem_cons.mp htoken with rfl | htoken
      · -- a delimiter in the token would be before the first one
        intro h
        obtain ⟨i, hi, hpre⟩ := exists_drop_of_isInfix h
        have hpos := List.length_pos_iff.mpr hne
        refine hfirst.first i (by omega) ?_
        rw [List.drop_append_of_le_length (by omega)]
        exact hpre.trans (List.prefix_append _ _)
      · exact ih t.length (hlen ▸ hlt) t rfl token htoken

/-- No token contains the delimiter. -/
theorem not_isInfix_of_mem_strsplit (hne : delimiter ≠ []) (s : List UInt8) :
    ∀ token ∈ strsplit s delimiter hne, ¬ delimiter <:+: token := by
  intro token htoken
  apply not_isInfix_of_mem_strsplitLoop hne s
  unfold strsplit strsplitFull at htoken
  generalize strsplitLoop (searchStrstr delimiter hne) s = r at htoken ⊢
  obtain ⟨tokens, rest⟩ := r
  by_cases hrest : rest = []
  · simp only [hrest, if_true] at htoken
    exact List.mem_append_left _ htoken
  · simpa [hrest] using htoken

/-- The string, cut at its delimiters from the left, has nothing behind the last one. -/
inductive EndsInCut (delimiter : List UInt8) : List UInt8 → Prop where
  | last {a : List UInt8} (h : FirstAt delimiter (a ++ (delimiter ++ [])) a.length) :
      EndsInCut delimiter (a ++ (delimiter ++ []))
  | cut {a t : List UInt8} (h : FirstAt delimiter (a ++ (delimiter ++ t)) a.length)
      (ht : EndsInCut delimiter t) : EndsInCut delimiter (a ++ (delimiter ++ t))

theorem endsInCut_iff (hne : delimiter ≠ []) (s : List UInt8) :
    EndsInCut delimiter s ↔ (strsplitLoop (searchStrstr delimiter hne) s).1 ≠ [] ∧
      (strsplitLoop (searchStrstr delimiter hne) s).2 = [] := by
  have hempty : strsplitLoop (searchStrstr delimiter hne) [] = ([], []) :=
    strsplitLoop_of_none hne (by simpa using hne)
  constructor
  · intro h
    induction h with
    | last h =>
      rw [strsplitLoop_of_firstAt hne h, hempty]
      exact ⟨by simp, rfl⟩
    | cut h ht ih =>
      rw [strsplitLoop_of_firstAt hne h]
      exact ⟨by simp, ih.2⟩
  · induction hlen : s.length using Nat.strong_induction_on generalizing s with
    | _ n ih =>
      rcases cut_cases hne s with hnone | ⟨a, t, rfl, hfirst, hlt⟩
      · rw [strsplitLoop_of_none hne hnone]
        exact fun h => absurd rfl h.1
      · rw [strsplitLoop_of_firstAt hne hfirst]
        rintro ⟨-, hrest⟩
        by_cases hmore : (strsplitLoop (searchStrstr delimiter hne) t).1 = []
        · -- the last delimiter: what is left of the string is empty
          have hjoin := strjoinv_loop hne t
          rw [hmore, hrest] at hjoin
          obtain rfl : t = [] := hjoin.symm
          exact .last hfirst
        · exact .cut hfirst (ih t.length (hlen ▸ hlt) t rfl ⟨hmore, hrest⟩)

/-- **The tokens of a string join to it** unless it ends in a cut. -/
theorem strjoinv_strsplit_iff (hne : delimiter ≠ []) (s : List UInt8) :
    strjoinv delimiter (strsplit s delimiter hne) = s ↔ ¬ EndsInCut delimiter s := by
  have hjoin := strjoinv_loop hne s
  rw [endsInCut_iff hne]
  unfold strsplit strsplitFull
  generalize strsplitLoop (searchStrstr delimiter hne) s = r at hjoin ⊢
  obtain ⟨tokens, rest⟩ := r
  dsimp only at hjoin ⊢
  by_cases hrest : rest = []
  · subst hrest
    rw [if_pos rfl]
    by_cases htokens : tokens = []
    · subst htokens
      exact iff_of_true hjoin (fun h => h.1 rfl)
    · refine iff_of_false ?_ (not_not.mpr ⟨htokens, rfl⟩)
      rw [strjoinv_append_nil delimiter htokens] at hjoin
      -- the last delimiter is missing
      intro hsame
      have hlen := congrArg List.length (hsame.trans hjoin.symm)
      have hpos := List.length_pos_iff.mpr hne
      rw [List.length_append] at hlen
      omega
  · rw [if_neg hrest]
    exact iff_of_true hjoin (fun h => hrest h.2)

/-- For a delimiter of one byte, the last byte is the delimiter. -/
theorem endsInCut_singleton_iff {d : UInt8} {s : List UInt8} :
    EndsInCut [d] s ↔ s.getLast? = some d := by
  have hfirst {a t : List UInt8} (ha : d ∉ a) : FirstAt [d] (a ++ ([d] ++ t)) a.length := by
    refine ⟨by rw [List.drop_left]; exact List.prefix_append _ _, ?_⟩
    rintro i hi ⟨u, hu⟩
    rw [List.drop_append_of_le_length (by omega), List.drop_eq_getElem_cons hi] at hu
    exact ha ((List.cons.inj hu).1 ▸ List.getElem_mem hi)
  constructor
  · intro h
    induction h with
    | last h => simp
    | @cut a t h ht ih =>
      rw [List.getLast?_append, List.getLast?_append, ih]
      rfl
  · induction hlen : s.length using Nat.strong_induction_on generalizing s with
    | _ n ih =>
      intro h
      rcases eq_append_cons_or_not_mem d s with hnot | ⟨a, t, rfl, ha⟩
      · exact absurd (List.mem_of_getLast? h) hnot
      · rw [show a ++ d :: t = a ++ ([d] ++ t) from rfl] at h hlen ⊢
        by_cases ht : t = []
        · subst ht
          exact .last (hfirst ha)
        · refine .cut (hfirst ha) (ih t.length ?_ rfl ?_)
          · rw [← hlen]
            simp only [List.length_append, List.length_singleton]
            omega
          · obtain ⟨b, hb⟩ := Option.ne_none_iff_exists'.mp (mt List.getLast?_eq_none_iff.mp ht)
            rw [List.getLast?_append, List.getLast?_append, hb] at h
            rw [hb]
            exact h

/-! ## Splitting what was joined -/

/-- **A vector is split again** unless its last token is empty. -/
theorem strsplit_strjoinv_iff {d : UInt8} {strv : List (List UInt8)}
    (h : ∀ token ∈ strv, d ∉ token) :
    strsplit (strjoinv [d] strv) [d] (by simp) = strv ↔ strv.getLast? ≠ some [] := by
  induction strv with
  | nil =>
    refine iff_of_true ?_ (by simp)
    exact strsplit_of_not_mem (by simp [strjoinv])
  | cons token strv ih =>
    obtain ⟨htoken, hrest⟩ := List.forall_mem_cons.mp h
    by_cases hnil : strv = []
    · subst hnil
      rw [strjoinv, strsplit_of_not_mem htoken]
      by_cases hempty : token = [] <;> simp [hempty]
    · rw [strjoinv_cons _ _ hnil]
      show strsplit (token ++ d :: strjoinv [d] strv) [d] _ = _ ↔ _
      rw [strsplit_append htoken, List.cons.injEq, List.getLast?_cons_of_ne_nil hnil, ← ih hrest]
      simp

/-! ## Both ways -/

/-- The split of a string stores a vector that ends in `NULL` in the slots it allocates, no token has the
delimiter in it, and the tokens join to the string. -/
structure SplitsAndJoins (s : List UInt8) {delimiter : List UInt8} (hne : delimiter ≠ []) : Prop where
  slots : ∃ unused, strsplitSlots (searchStrstr delimiter hne) s =
    .ok ((strsplit s delimiter hne).map some ++ none :: unused) ∧
    ((strsplit s delimiter hne).map some ++ none :: unused).length =
      countDelimiters (searchStrstr delimiter hne) s + 2
  tokens : ∀ token ∈ strsplit s delimiter hne, ¬ delimiter <:+: token
  joins : strjoinv delimiter (strsplit s delimiter hne) = s

/-- **Split and join are inverse to each other where no empty token is at the end**: for the strings with
something behind the last cut, and for the vectors whose last token is not empty. -/
theorem splitsAndJoins_iff (s : List UInt8) {delimiter : List UInt8} (hne : delimiter ≠ []) {d : UInt8}
    {strv : List (List UInt8)} (hstrv : ∀ token ∈ strv, d ∉ token) :
    (SplitsAndJoins s hne ↔ ¬ EndsInCut delimiter s) ∧
      (strsplit (strjoinv [d] strv) [d] (by simp) = strv ↔ strv.getLast? ≠ some []) := by
  constructor
  · rw [← strjoinv_strsplit_iff hne]
    refine ⟨fun h => h.joins, ?_⟩
    intro hjoins
    exact ⟨strsplitSlots_eq _ s, not_isInfix_of_mem_strsplit hne s, hjoins⟩
  · exact strsplit_strjoinv_iff hstrv

/-- `a--b` at `--`, and the vector of `1` and `7`. -/
theorem splitsAndJoins_iff_dashes :
    (SplitsAndJoins [0x61, 0x2D, 0x2D, 0x62] (show [0x2D, 0x2D] ≠ [] by simp) ↔
      ¬ EndsInCut [0x2D, 0x2D] [0x61, 0x2D, 0x2D, 0x62]) ∧
    (strsplit (strjoinv [0x3B] [[0x31], [0x37]]) [0x3B] (by simp) = [[0x31], [0x37]] ↔
      ([[0x31], [0x37]] : List (List UInt8)).getLast? ≠ some []) :=
  splitsAndJoins_iff [0x61, 0x2D, 0x2D, 0x62] (by simp) (by simp)

/-- The parameter list `1;` loses its empty parameter, as a string and as a vector. -/
theorem not_splitsAndJoins_trailing :
    ¬ SplitsAndJoins [0x31, 0x3B] (show [0x3B] ≠ [] by simp) ∧
      strsplit (strjoinv [0x3B] [[0x31], []]) [0x3B] (by simp) ≠ [[0x31], []] := by
  have hsplit : strsplit [0x31, 0x3B] [0x3B] (by simp) = [[0x31]] := by
    rw [show ([0x31, 0x3B] : List UInt8) = [0x31] ++ 0x3B :: [] from rfl, strsplit_append (by decide),
      strsplit_of_not_mem (by simp)]
    rfl
  constructor
  · intro h
    have hjoins := h.joins
    rw [hsplit] at hjoins
    exact absurd hjoins (by decide)
  · show strsplit [0x31, 0x3B] [0x3B] (by simp) ≠ [[0x31], []]
    rw [hsplit]
    decide

end LibFep
