import Mathlib.Data.Char
import Mathlib.Data.List.Lex
import Mathlib.Data.Prod.Lex
import ProGuide.Lib.RegexSearch
import ProGuide.Lib.Rounding
import ProGuide.Lib.Unicode
import ProGuide.Workflow.Files
/-!
# Searching items

`filter` of `workflow.py`: the items that match a query, the best match first. A list of
rules gives each match its score, from a common beginning down to the same characters in
the same order.
-/
open ProGuide.Lib ProGuide.Lib.Unicode
open scoped List

namespace ProGuide.Workflow.Filter

/-! ## The rules -/

def matchStartswith : Nat := 1
def matchCapitals : Nat := 2
def matchAtom : Nat := 4
def matchInitialsStartswith : Nat := 8
def matchInitialsContain : Nat := 16
def matchSubstring : Nat := 32
def matchAllchars : Nat := 64
def matchAll : Nat := 127

def on (match_on flag : Nat) : Bool := match_on &&& flag ≠ 0

/-- A score, and the rule it is by. -/
abbrev Match := ℚ × Option Nat

/-- `c in INITIALS`. -/
def isInitial (c : Char) : Bool := ('A' ≤ c && c ≤ 'Z') || ('0' ≤ c && c ≤ '9')

def splitOnDelimiters (s : Str) : List Str := s.splitOnP fun c => !c.isAlphanum

section Rules
variable (u : Tables) (fl : Rounding 53)

def foldToAscii (text : Str) : Str := if isAscii text then text else u.fold text

/-- `top - (len(of) / len(query))`. The division is of whole numbers. -/
def ratio (top : ℚ) (s query : Str) : ℚ := fl.round (top - (s.length / query.length : ℕ))

/-- `re.escape` leaves each character to stand for itself. -/
def searchForQuery (query : Str) : Str → Option (Nat × Nat) :=
  Regex.search { ignorecase := true } (Regex.inOrder query)

/-- The tests of `_filter_item`, in their order. -/
def matchRules (value query : Str) (match_on : Nat) : Match :=
  let low := u.lowered value
  let initials := value.filter isInitial
  let atoms := (splitOnDelimiters value).map u.lowered
  let atomInitials := atoms.filterMap List.head?
  if ¬ query ⊆ low then (0, none)
  else if on match_on matchStartswith ∧ query <+: low then (ratio fl 100 value query, some matchStartswith)
  else if on match_on matchCapitals ∧ query <+: u.lowered initials then
    (ratio fl 100 initials query, some matchCapitals)
  else if on match_on matchAtom ∧ atoms.contains query then (ratio fl 100 value query, some matchAtom)
  else if on match_on matchInitialsStartswith ∧ query <+: atomInitials then
    (ratio fl 100 atomInitials query, some matchInitialsStartswith)
  else if on match_on matchInitialsContain ∧ query <:+: atomInitials then
    (ratio fl 95 atomInitials query, some matchInitialsContain)
  else if on match_on matchSubstring ∧ query <:+: low then (ratio fl 90 value query, some matchSubstring)
  else if on match_on matchAllchars then
    match searchForQuery query value with
    | some (start, stop) => (fl.div 100 ((1 + start) * (stop - start + 1) : ℕ), some matchAllchars)
    | none => (0, none)
  else (0, none)

def filterItem (value query : Str) (match_on : Nat) (fold_diacritics : Bool) : Match :=
  let query := u.lowered query
  let fold_diacritics := if isAscii query then fold_diacritics else false
  matchRules u fl (if fold_diacritics then foldToAscii u value else value) query match_on

/-! ## The results -/

structure Found (α : Type) where
  item : α
  score : ℚ
  rule : Option Nat

variable {α : Type} (key : α → Str)

/-- The words of a query. -/
def queryWords (query : Str) : List Str := ((query.splitOn ' ').map Unicode.strip).filter (· ≠ [])

/-- The matches of the words, if every one of them has a score. -/
def allMatches (value query : Str) (match_on : Nat) (fold_diacritics : Bool) : Option (List Match) :=
  let ms := (queryWords query).map fun word => filterItem u fl value word match_on fold_diacritics
  if ms.all (·.1 ≠ 0) then some ms else none

/-- The scores add up; the rule is the last word's. -/
def total (ms : List Match) : Match := (ms.foldl (fun score m => fl.round (score + m.1)) 0, ms.getLast?.bind (·.2))

/-- An item is passed over if its key is blank, if a word does not match, or if the
scores add up to nothing. -/
def found (query : Str) (match_on : Nat) (fold_diacritics : Bool) (item : α) : Option (Found α) :=
  let value := Unicode.strip (key item)
  if value = [] then none
  else
    match allMatches u fl value query match_on fold_diacritics with
    | none => none
    | some ms =>
      let (score, rule) := total fl ms
      if score = 0 then none else some ⟨item, score, rule⟩

variable [LinearOrder α]

/-- What results are sorted by. The rule would be last; it is the same for the same item. -/
def sortKey (r : Found α) : ℚ ×ₗ Str ×ₗ ℚ ×ₗ α :=
  toLex (fl.div 100 r.score, toLex (u.lowered (Unicode.strip (key r.item)), toLex (r.score, r.item)))

def before (ascending : Bool) (r r' : Found α) : Bool :=
  if ascending then decide (sortKey u fl key r' ≤ sortKey u fl key r)
  else decide (sortKey u fl key r ≤ sortKey u fl key r')

def results (query : Str) (items : List α) (ascending : Bool) (min_score : ℚ) (max_results match_on : Nat)
    (fold_diacritics : Bool) : List (Found α) :=
  let results := items.filterMap (found u fl key query match_on fold_diacritics)
  let results := results.mergeSort (before u fl key ascending)
  let results := if min_score ≠ 0 then results.filter fun r => min_score < r.score else results
  if max_results ≠ 0 ∧ max_results < results.length then results.take max_results else results

/-- `override` is the setting `__workflow_diacritic_folding`. -/
def filter (query : Str) (items : List α) (ascending : Bool) (min_score : ℚ) (max_results match_on : Nat)
    (fold_diacritics : Bool) (override : Option Bool) : List α :=
  let query := Unicode.strip query
  if query = [] then items
  else (results u fl key query items ascending min_score max_results match_on
    (override.getD fold_diacritics)).map (·.item)

end Rules

/-! ## Which words match -/

section Matching
variable {u : Tables} {fl : Rounding 53}

/-- What stands first in the pieces of a text stands in it in that order. -/
theorem heads_sublist (p : Char → Bool) (s : Str) : (s.splitOnP p).filterMap List.head? <+ s := by
  induction s with
  | nil => simp
  | cons c s ih =>
    rw [List.splitOnP_cons_eq_if_modifyHead]
    split
    · show (s.splitOnP p).filterMap List.head? <+ c :: s
      exact ih.cons c
    · obtain ⟨w, ws, hws⟩ := List.exists_cons_of_ne_nil (List.splitOnP_ne_nil p s)
      rw [hws] at ih ⊢
      show c :: ws.filterMap List.head? <+ c :: s
      rw [List.cons_sublist_cons]
      exact ((List.sublist_cons_self w ws).filterMap _).trans ih

theorem piece_sublist (p : Char → Bool) (s : Str) {w : Str} (hw : w ∈ s.splitOnP p) : w <+ s := by
  induction s generalizing w with
  | nil =>
    rw [List.splitOnP_nil, List.mem_singleton] at hw
    rw [hw]
  | cons c s ih =>
    rw [List.splitOnP_cons_eq_if_modifyHead] at hw
    split at hw
    · rcases List.mem_cons.1 hw with rfl | hw
      · exact List.nil_sublist _
      · exact (ih hw).cons c
    · obtain ⟨v, vs, hvs⟩ := List.exists_cons_of_ne_nil (List.splitOnP_ne_nil p s)
      rw [hvs] at ih hw
      rcases List.mem_cons.1 hw with rfl | hw
      · exact (ih List.mem_cons_self).cons_cons c
      · exact (ih (List.mem_cons_of_mem v hw)).cons c

theorem isAscii_foldToAscii (s : Str) : isAscii (foldToAscii u s) = true := by
  unfold foldToAscii
  split
  · assumption
  · exact u.fold_ascii s

theorem ratio_pos {top : ℚ} {s query : Str} (htop : 90 ≤ top) (hs : s.length < 90) : 0 < ratio fl top s query := by
  have hdiv : s.length / query.length < 90 := Nat.lt_of_le_of_lt (Nat.div_le_self ..) hs
  have hlt : ((s.length / query.length : ℕ) : ℚ) < 90 := by exact_mod_cast hdiv
  exact fl.round_pos (by decide) (by linarith)

/-- A word matches a key when its characters stand there in their order, in either case. -/
def Matches (u : Tables) (word value : Str) : Prop := u.lowered word <+ u.lowered (foldToAscii u value)

instance (word value : Str) : Decidable (Matches u word value) := inferInstanceAs (Decidable (_ <+ _))

theorem same_ignorecase {c d : Char} (hc : c.toLower = c) :
    Regex.same { ignorecase := true } c d = true ↔ c = d.toLower := by
  simp only [Regex.same, Regex.lower, hc, Bool.true_and, Bool.or_eq_true, decide_eq_true_eq]
  constructor
  · rintro (rfl | h)
    · exact hc.symm
    · exact h
  · exact Or.inr

theorem searchForQuery_isSome {query value : Str} (hquery : ∀ c ∈ query, c.toLower = c) (hline : '\n' ∉ value) :
    (searchForQuery query value).isSome = true ↔ query <+ value.map Char.toLower := by
  rw [searchForQuery, Regex.search_inOrder hline, List.sublistForall₂_iff, List.sublist_map_iff]
  have hsame (l : Str) : List.Forall₂ (fun c d => Regex.same { ignorecase := true } c d = true) query l ↔
      query = l.map Char.toLower := by
    induction query generalizing l with
    | nil => cases l <;> simp
    | cons c query ih =>
      obtain ⟨hc, hquery⟩ := List.forall_mem_cons.1 hquery
      cases l with
      | nil => simp
      | cons d l => rw [List.forall₂_cons, same_ignorecase hc, ih hquery, List.map_cons, List.cons.injEq]
  simp only [hsame, and_comm]

theorem atomInitials_sublist (v : Str) :
    ((splitOnDelimiters v).map u.lowered).filterMap List.head? <+ u.lowered v := by
  have hhead (w : Str) : (u.lowered w).head? = w.head?.map u.lower := List.head?_map ..
  rw [List.filterMap_map]
  simp only [Function.comp_def, hhead, ← List.map_filterMap]
  exact (heads_sublist _ v).map u.lower

variable {v q : Str} {match_on : Nat}

/-- The last rule finds every key that has the characters in their order, and the others
give it a score too. -/
theorem matchRules_pos (hall : on match_on matchAllchars = true) (hshort : v.length < 90)
    (hsearch : (searchForQuery q v).isSome = true ↔ q <+ u.lowered v) (h : q <+ u.lowered v) :
    0 < (matchRules u fl v q match_on).1 := by
  have hinitials : (((splitOnDelimiters v).map u.lowered).filterMap List.head?).length < 90 := by
    have := (atomInitials_sublist (u := u) v).length_le
    rw [Tables.lowered, List.length_map] at this
    exact Nat.lt_of_le_of_lt this hshort
  simp only [matchRules, hall, if_true, if_neg (not_not_intro h.subset)]
  split_ifs
  · exact ratio_pos (by norm_num) hshort
  · exact ratio_pos (by norm_num) (Nat.lt_of_le_of_lt (List.length_filter_le ..) hshort)
  · exact ratio_pos (by norm_num) hshort
  · exact ratio_pos (by norm_num) hinitials
  · exact ratio_pos (by norm_num) hinitials
  · exact ratio_pos (by norm_num) hshort
  · obtain ⟨⟨start, stop⟩, hs⟩ := Option.isSome_iff_exists.1 (hsearch.2 h)
    rw [hs]
    exact fl.round_pos (by decide) (by positivity)

/-- Whatever rule finds a key finds the characters in it in their order. -/
theorem matchRules_zero (hsearch : (searchForQuery q v).isSome = true ↔ q <+ u.lowered v) (h : ¬ q <+ u.lowered v) :
    (matchRules u fl v q match_on).1 = 0 := by
  have hlow : ¬ q <:+: u.lowered v := fun hi => h hi.sublist
  have hcapitals : ¬ q <+: u.lowered (v.filter isInitial) := fun hp =>
    h (hp.sublist.trans (List.filter_sublist.map u.lower))
  have hatom : q ∉ (splitOnDelimiters v).map u.lowered := by
    intro hm
    obtain ⟨w, hw, rfl⟩ := List.mem_map.1 hm
    exact h ((piece_sublist _ v hw).map u.lower)
  have hinitials : ¬ q <:+: ((splitOnDelimiters v).map u.lowered).filterMap List.head? := fun hi =>
    h (hi.sublist.trans (atomInitials_sublist v))
  have hnone : searchForQuery q v = none := Option.not_isSome_iff_eq_none.1 fun hs => h (hsearch.1 hs)
  simp only [matchRules, List.contains_iff_mem, hcapitals, hatom, hlow, hinitials, hnone,
    mt List.IsPrefix.isInfix hlow, mt List.IsPrefix.isInfix hinitials, and_false, if_false, ite_self]

/-- A word has a score exactly when it matches. -/
theorem filterItem_score (fl : Rounding 53) {value word : Str} (hall : on match_on matchAllchars = true)
    (hword : isAscii word = true) (hshort : (foldToAscii u value).length < 90) (hline : '\n' ∉ foldToAscii u value) :
    (Matches u word value → 0 < (filterItem u fl value word match_on true).1) ∧
      (¬ Matches u word value → (filterItem u fl value word match_on true).1 = 0) := by
  have hsearch := searchForQuery_isSome (fun c hc => (Tables.mem_lowered (u := u) hword hc).2) hline
  rw [← Tables.lowered_ascii (u := u) (isAscii_foldToAscii value)] at hsearch
  simp only [filterItem, Tables.isAscii_lowered hword, if_true]
  exact ⟨matchRules_pos hall hshort hsearch, matchRules_zero hsearch⟩

end Matching

/-! ## What is found -/

section Finding
variable {u : Tables} {fl : Rounding 53} {α : Type} {key : α → Str} {query : Str} {match_on : Nat}

theorem strip_sublist (s : Str) : Unicode.strip s <+ s :=
  (List.rdropWhile_prefix Unicode.isSpace _).sublist.trans (List.dropWhile_sublist _)

theorem exists_of_strip {s : Str} (h : Unicode.strip s ≠ []) : ∃ c ∈ Unicode.strip s, Unicode.isSpace c = false :=
  ⟨_, List.getLast_mem h, Bool.eq_false_iff.2 (List.rdropWhile_last_not Unicode.isSpace _ h)⟩

theorem mem_piece {p : Char → Bool} {s : Str} {c : Char} (hc : c ∈ s) (hp : p c = false) :
    ∃ w ∈ s.splitOnP p, c ∈ w := by
  induction s with
  | nil => cases hc
  | cons d s ih =>
    rw [List.splitOnP_cons_eq_if_modifyHead]
    split
    · next hd =>
      rcases List.mem_cons.1 hc with rfl | hc
      · exact absurd (hp.symm.trans hd) (by decide)
      · obtain ⟨w, hw, hcw⟩ := ih hc
        exact ⟨w, List.mem_cons_of_mem _ hw, hcw⟩
    · obtain ⟨v, vs, hvs⟩ := List.exists_cons_of_ne_nil (List.splitOnP_ne_nil p s)
      rw [hvs] at ih ⊢
      rw [List.modifyHead_cons]
      rcases List.mem_cons.1 hc with rfl | hc
      · exact ⟨c :: v, List.mem_cons_self, List.mem_cons_self⟩
      · obtain ⟨w, hw, hcw⟩ := ih hc
        rcases List.mem_cons.1 hw with rfl | hw
        · exact ⟨d :: w, List.mem_cons_self, List.mem_cons_of_mem d hcw⟩
        · exact ⟨w, List.mem_cons_of_mem _ hw, hcw⟩

theorem mem_queryWords {word : Str} (h : word ∈ queryWords query) : word <+ query := by
  obtain ⟨w, hw, rfl⟩ := List.mem_map.1 (List.mem_filter.1 h).1
  exact (strip_sublist w).trans (piece_sublist _ query hw)

/-- A query that is not blank has a word. -/
theorem queryWords_ne_nil {c : Char} (hc : c ∈ query) (hspace : Unicode.isSpace c = false) :
    queryWords query ≠ [] := by
  have hblank : (c == ' ') = false := beq_false_of_ne fun h => absurd (h ▸ hspace) (by decide)
  obtain ⟨w, hw, hcw⟩ := mem_piece (p := (· == ' ')) hc hblank
  have hstrip : Unicode.strip w ≠ [] := by
    intro hnil
    have hdrop : w.dropWhile Unicode.isSpace = [] := by
      by_contra hne
      have hhead := List.head_dropWhile_not Unicode.isSpace hne
      rw [List.rdropWhile_eq_nil_iff.1 hnil _ (List.head_mem hne)] at hhead
      cases hhead
    exact absurd (List.dropWhile_eq_nil_iff.1 hdrop c hcw) (by simp [hspace])
  exact List.ne_nil_of_mem (List.mem_filter.2 ⟨List.mem_map_of_mem hw, by simpa using hstrip⟩)

theorem isAscii_of_sublist {s t : Str} (h : s <+ t) (ht : isAscii t = true) : isAscii s = true :=
  List.all_eq_true.2 fun c hc => List.all_eq_true.1 ht c (h.subset hc)

theorem total_pos (fl : Rounding 53) {ms : List Match} (hne : ms ≠ []) (h : ∀ m ∈ ms, 0 < m.1) : 0 < (total fl ms).1 := by
  have hfold (score : ℚ) (hscore : 0 ≤ score) (ms : List Match) (h : ∀ m ∈ ms, 0 < m.1) :
      0 ≤ ms.foldl (fun score m => fl.round (score + m.1)) score ∧
        (ms ≠ [] → 0 < ms.foldl (fun score m => fl.round (score + m.1)) score) := by
    induction ms generalizing score with
    | nil => exact ⟨hscore, fun hne => absurd rfl hne⟩
    | cons m ms ih =>
      obtain ⟨hm, hms⟩ := List.forall_mem_cons.1 h
      have hstep : 0 < fl.round (score + m.1) := fl.round_pos (by decide) (by linarith)
      obtain ⟨hnonneg, hpos⟩ := ih _ hstep.le hms
      refine ⟨hnonneg, fun _ => ?_⟩
      cases ms with
      | nil => exact hstep
      | cons m' ms => exact hpos (List.cons_ne_nil _ _)
  exact (hfold 0 le_rfl ms h).2 hne

/-- A key the scores are meant for: short, and one line. -/
structure Plain (u : Tables) (value : Str) : Prop where
  short : (foldToAscii u value).length < 90
  line : '\n' ∉ foldToAscii u value

/-- An item is found exactly when its key is not blank and every word of the query matches it. -/
theorem found_eq (fl : Rounding 53) (key : α → Str) (hall : on match_on matchAllchars = true) (hquery : isAscii query = true)
    (hwords : queryWords query ≠ []) {item : α} (hplain : Plain u (Unicode.strip (key item))) :
    (found u fl key query match_on true item).map (·.item) =
      if Unicode.strip (key item) ≠ [] ∧ ∀ word ∈ queryWords query, Matches u word (Unicode.strip (key item)) then
        some item
      else none := by
  have hscore (word : Str) (hword : word ∈ queryWords query) :=
    filterItem_score fl hall (isAscii_of_sublist (mem_queryWords hword) hquery) hplain.short hplain.line
  generalize hvalue : Unicode.strip (key item) = value at hscore
  unfold found
  simp only [hvalue]
  by_cases hnil : value = []
  · simp [hnil]
  · by_cases hmatch : ∀ word ∈ queryWords query, Matches u word value
    · rw [if_neg hnil, if_pos ⟨hnil, hmatch⟩]
      have hpos : ∀ m ∈ (queryWords query).map fun word => filterItem u fl value word match_on true, 0 < m.1 := by
        intro m hm
        obtain ⟨word, hword, rfl⟩ := List.mem_map.1 hm
        exact (hscore word hword).1 (hmatch word hword)
      have hms : allMatches u fl value query match_on true =
          some ((queryWords query).map fun word => filterItem u fl value word match_on true) := by
        rw [allMatches, if_pos (List.all_eq_true.2 fun m hm => decide_eq_true (hpos m hm).ne')]
      have htotal := total_pos fl (by simpa using hwords) hpos
      rw [hms]
      simp only [if_neg htotal.ne', Option.map_some]
    · rw [if_neg hnil, if_neg fun h => hmatch h.2]
      obtain ⟨word, hword, hno⟩ : ∃ word ∈ queryWords query, ¬ Matches u word value := by
        simpa using hmatch
      have hms : allMatches u fl value query match_on true = none := by
        rw [allMatches, if_neg]
        intro h
        have hzero := List.all_eq_true.1 h _ (List.mem_map_of_mem hword)
        rw [(hscore word hword).2 hno] at hzero
        exact absurd hzero (by decide)
      rw [hms]
      rfl

variable [LinearOrder α]

theorem before_trans (ascending : Bool) (a b c : Found α) (hab : before u fl key ascending a b = true)
    (hbc : before u fl key ascending b c = true) : before u fl key ascending a c = true := by
  cases ascending with
  | true => exact decide_eq_true ((of_decide_eq_true hbc).trans (of_decide_eq_true hab))
  | false => exact decide_eq_true ((of_decide_eq_true hab).trans (of_decide_eq_true hbc))

theorem before_total (ascending : Bool) (a b : Found α) :
    (before u fl key ascending a b || before u fl key ascending b a) = true := by
  cases ascending with
  | true => exact Bool.or_eq_true_iff.2 ((le_total _ _).imp decide_eq_true decide_eq_true)
  | false => exact Bool.or_eq_true_iff.2 ((le_total _ _).imp decide_eq_true decide_eq_true)

/-- What is found is sorted, what scores too little is dropped, and `max_results` are kept:
whatever else was found comes after everything that is kept. -/
theorem results_first (items : List α) (ascending : Bool) (min_score : ℚ) (max_results : Nat) (fold_diacritics : Bool) :
    ∃ left, (results u fl key query items ascending min_score max_results match_on fold_diacritics ++ left).Perm
        ((items.filterMap (found u fl key query match_on fold_diacritics)).filter fun r =>
          min_score = 0 ∨ min_score < r.score) ∧
      (results u fl key query items ascending min_score max_results match_on fold_diacritics ++ left).Pairwise
        (fun r r' => before u fl key ascending r r' = true) ∧
      (left ≠ [] → (results u fl key query items ascending min_score max_results match_on
        fold_diacritics).length = max_results) := by
  generalize hall : items.filterMap (found u fl key query match_on fold_diacritics) = all
  simp only [results, hall]
  have hperm := List.mergeSort_perm all (before u fl key ascending)
  have hsorted : (all.mergeSort (before u fl key ascending)).Pairwise
      fun r r' => before u fl key ascending r r' = true :=
    List.pairwise_mergeSort (before_trans ascending) (before_total ascending) all
  generalize all.mergeSort (before u fl key ascending) = sorted at hperm hsorted ⊢
  have hkept : (if min_score ≠ 0 then sorted.filter fun r => min_score < r.score else sorted) =
      sorted.filter fun r => min_score = 0 ∨ min_score < r.score := by
    by_cases h : min_score = 0
    · simp [h]
    · simp [h]
  rw [hkept]
  replace hperm := hperm.filter fun r => decide (min_score = 0 ∨ min_score < r.score)
  replace hsorted := hsorted.filter fun r => decide (min_score = 0 ∨ min_score < r.score)
  generalize (sorted.filter fun r => decide (min_score = 0 ∨ min_score < r.score)) = kept at hperm hsorted ⊢
  split
  · next h =>
    refine ⟨kept.drop max_results, ?_, ?_, fun _ => List.length_take_of_le h.2.le⟩
    · rwa [List.take_append_drop]
    · rwa [List.take_append_drop]
  · refine ⟨[], ?_, ?_, fun h => absurd rfl h⟩
    · rwa [List.append_nil]
    · rwa [List.append_nil]

omit [LinearOrder α] in
theorem item_of_found {item : α} {r : Found α} {fold_diacritics : Bool}
    (h : found u fl key query match_on fold_diacritics item = some r) : r.item = item := by
  simp only [found] at h
  split at h
  · cases h
  · split at h
    · cases h
    · split at h
      · cases h
      · rw [← Option.some.inj h]

end Finding

/-! ## An example of tables -/

/-- ASCII alone has lower case, and nothing else is kept. -/
def asciiTables : Tables where
  lower := Char.toLower
  fold s := s.filter fun c => c.toNat < 128
  lower_ascii _ _ := rfl
  fold_ascii s := by simp [isAscii]

def browsers : List Str := ["Google Chrome".toList, "Safari".toList, "chrome".toList]

end ProGuide.Workflow.Filter
