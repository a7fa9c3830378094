import Mathlib.Algebra.Ring.Nat
import Mathlib.Data.List.Basic
/-!
# Shell-like word splitting

The lexer behind Python's `shlex.split`, with the quoting rules of a POSIX shell
and no comments. A word comes back unchanged only if no character of it means
something to the lexer, since each one that does is left out or cuts the word.
-/

namespace ProGuide.Lib.Shlex

abbrev Str := List Char

inductive Error where
  | noClosingQuotation
  | noEscapedCharacter
  deriving DecidableEq, Repr

/-- The state of the lexer: between words, in a word, after an opening quote, or
after a backslash, with the quote it stands in. -/
inductive Mode where
  | blank
  | word
  | quoted (q : Char)
  | escape (q : Option Char)
  deriving DecidableEq, Repr

def isBlank (c : Char) : Bool := c ∈ [' ', '\t', '\r', '\n']

def isQuote (c : Char) : Bool := c ∈ ['\'', '"']

def isEscape (c : Char) : Bool := c = '\\'

/-- The words from a state on: `tok` is the word begun, `some` of it quoted or
not. An empty word counts only if it is quoted. -/
def lex : Mode → Str → Bool → Str → Except Error (List Str)
  | .blank, _, _, [] => .ok []
  | .blank, tok, q, c :: s =>
    if isBlank c then lex .blank tok q s
    else if isEscape c then lex (.escape none) tok q s
    else if isQuote c then lex (.quoted c) tok q s
    else lex .word [c] q s
  | .word, tok, q, [] => .ok (if tok = [] && !q then [] else [tok])
  | .word, tok, q, c :: s =>
    if isBlank c then
      if tok = [] && !q then lex .blank [] false s else (lex .blank [] false s).map (tok :: ·)
    else if isQuote c then lex (.quoted c) tok q s
    else if isEscape c then lex (.escape none) tok q s
    else lex .word (tok ++ [c]) q s
  | .quoted _, _, _, [] => .error .noClosingQuotation
  | .quoted k, tok, _, c :: s =>
    if c = k then lex .word tok true s
    else if isEscape c && k = '"' then lex (.escape (some k)) tok true s
    else lex (.quoted k) (tok ++ [c]) true s
  | .escape _, _, _, [] => .error .noEscapedCharacter
  | .escape none, tok, q, c :: s => lex .word (tok ++ [c]) q s
  | .escape (some k), tok, q, c :: s =>
    -- inside quotes a backslash that escapes nothing stays
    if isEscape c || c = k then lex (.quoted k) (tok ++ [c]) q s
    else lex (.quoted k) (tok ++ ['\\', c]) q s

/-- `shlex.split`. -/
def split (s : Str) : Except Error (List Str) := lex .blank [] false s

/-- The character means something to the lexer. -/
def isSpecial (c : Char) : Bool := isBlank c || isQuote c || isEscape c

/-- No character of the text means anything to the lexer. -/
def Ordinary (s : Str) : Prop := ∀ c ∈ s, isSpecial c = false

instance (s : Str) : Decidable (Ordinary s) := inferInstanceAs (Decidable (∀ c ∈ s, isSpecial c = false))

theorem ordinary_cons {c : Char} {s : Str} (h : Ordinary (c :: s)) :
    (isBlank c = false ∧ isQuote c = false ∧ isEscape c = false) ∧ Ordinary s := by
  obtain ⟨hc, hs⟩ := List.forall_mem_cons.1 h
  simp only [isSpecial, Bool.or_eq_false_iff] at hc
  exact ⟨⟨hc.1.1, hc.1.2, hc.2⟩, hs⟩

/-! ## Ordinary words -/

theorem lex_word {w : Str} (hw : Ordinary w) (tok : Str) (q : Bool) (s : Str) :
    lex .word tok q (w ++ s) = lex .word (tok ++ w) q s := by
  induction w generalizing tok with
  | nil => simp
  | cons c w ih =>
    obtain ⟨⟨hb, hq, he⟩, hw⟩ := ordinary_cons hw
    rw [List.cons_append, lex]
    simp [hb, hq, he, ih hw]

/-- An ordinary word is read up to the blank after it. -/
theorem lex_ordinary {w : Str} (hw : Ordinary w) (hne : w ≠ []) (s : Str) :
    lex .blank [] false (w ++ ' ' :: s) = (lex .blank [] false s).map (w :: ·) := by
  obtain ⟨c, w, rfl⟩ := List.exists_cons_of_ne_nil hne
  obtain ⟨⟨hb, hq, he⟩, hw⟩ := ordinary_cons hw
  rw [List.cons_append, lex]
  simp only [hb, hq, he, Bool.false_eq_true, if_false]
  rw [lex_word hw, lex]
  simp [isBlank]

theorem split_ordinary {w : Str} (hw : Ordinary w) (hne : w ≠ []) : split w = .ok [w] := by
  obtain ⟨c, w, rfl⟩ := List.exists_cons_of_ne_nil hne
  obtain ⟨⟨hb, hq, he⟩, hw⟩ := ordinary_cons hw
  have hrest := lex_word hw [c] false []
  rw [List.append_nil] at hrest
  rw [split, lex]
  simp only [hb, hq, he, Bool.false_eq_true, if_false]
  rw [hrest, lex]
  simp

/-! ## What is left out -/

/-- The characters of some words. -/
def size (ws : List Str) : Nat := (ws.map List.length).sum

/-- The occurrences of a character in some words. -/
def occurrences (d : Char) (ws : List Str) : Nat := (ws.map (List.count d)).sum

/-- An open quote has its closing quote still to be left out. -/
def Mode.pending : Mode → Nat
  | .quoted _ => 1
  | _ => 0

/-- The states the lexer can be in. -/
def Mode.Ok (tok : Str) : Mode → Prop
  | .blank => tok = []
  | .quoted k | .escape (some k) => isQuote k = true
  | _ => True

/-- The words hold no more characters than were read, and all of those that mean
nothing to the lexer. -/
structure Kept (m : Mode) (tok s : Str) (ws : List Str) : Prop where
  size_le : size ws + m.pending ≤ tok.length + s.length
  ordinary : ∀ d, isSpecial d = false → occurrences d ws = tok.count d + s.count d

theorem special_of_blank {c : Char} (h : isBlank c = true) : isSpecial c = true := by simp [isSpecial, h]

theorem special_of_quote {c : Char} (h : isQuote c = true) : isSpecial c = true := by simp [isSpecial, h]

theorem special_of_escape {c : Char} (h : isEscape c = true) : isSpecial c = true := by simp [isSpecial, h]

/-- Leaving out a character that means something keeps the rest. -/
theorem Kept.skip {m m' : Mode} {tok s : Str} {ws : List Str} {c : Char} (h : Kept m tok s ws) (hc : isSpecial c = true)
    (hp : m'.pending ≤ m.pending + 1) : Kept m' tok (c :: s) ws := by
  refine ⟨?_, fun d hd => ?_⟩
  · have := h.size_le
    simp only [List.length_cons]
    omega
  · have hne : c ≠ d := by
      rintro rfl
      rw [hc] at hd
      cases hd
    rw [h.ordinary d hd, List.count_cons_of_ne hne]

/-- Taking a character over into the word keeps it. -/
theorem Kept.take {m m' : Mode} {tok s : Str} {ws : List Str} {c : Char} (h : Kept m (tok ++ [c]) s ws)
    (hp : m'.pending ≤ m.pending) : Kept m' tok (c :: s) ws := by
  refine ⟨?_, fun d hd => ?_⟩
  · have := h.size_le
    simp only [List.length_append, List.length_singleton] at this
    simp only [List.length_cons]
    omega
  · rw [h.ordinary d hd, List.count_append, List.count_cons (a := d) (l := s), List.count_singleton]
    omega

/-- Inside quotes, a backslash that escapes nothing is taken over too. -/
theorem Kept.take_escaped {k c : Char} {tok s : Str} {ws : List Str} (h : Kept (.quoted k) (tok ++ ['\\', c]) s ws) :
    Kept (.escape (some k)) tok (c :: s) ws := by
  refine ⟨?_, fun d hd => ?_⟩
  · have := h.size_le
    simp only [Mode.pending, List.length_append, List.length_cons, List.length_nil] at this ⊢
    omega
  · have hne : '\\' ≠ d := by
      rintro rfl
      cases hd
    rw [h.ordinary d hd, List.count_append, List.count_cons_of_ne hne, List.count_cons (a := d) (l := s), List.count_singleton]
    omega

/-- A finished word in front of the others. -/
theorem Kept.cons {s : Str} {ws : List Str} (h : Kept .blank [] s ws) (tok : Str) : Kept .word tok s (tok :: ws) := by
  refine ⟨?_, fun d hd => ?_⟩
  · have := h.size_le
    simp only [size, List.map_cons, List.sum_cons, Mode.pending, List.length_nil] at this ⊢
    omega
  · have := h.ordinary d hd
    simp only [occurrences, List.map_cons, List.sum_cons, List.count_nil] at this ⊢
    omega

theorem kept_end (tok : Str) (q : Bool) : Kept .word tok [] (if tok = [] && !q then [] else [tok]) := by
  split
  · exact ⟨Nat.zero_le _, fun d hd => by simp_all [occurrences]⟩
  · exact ⟨Nat.le_refl _, fun d hd => rfl⟩

theorem map_ok {ε α β : Type} {f : α → β} {x : Except ε α} {b : β} (h : x.map f = .ok b) : ∃ a, x = .ok a ∧ f a = b := by
  cases x with
  | error e => cases h
  | ok a => exact ⟨a, rfl, Except.ok.inj h⟩

theorem lex_kept {m : Mode} {tok : Str} {q : Bool} {s : Str} {ws : List Str} (hm : m.Ok tok)
    (h : lex m tok q s = .ok ws) : Kept m tok s ws := by
  induction m, tok, q, s using lex.induct generalizing ws with
  | case1 tok q =>
    rw [lex] at h
    obtain rfl := Except.ok.inj h
    obtain rfl : tok = [] := hm
    exact ⟨Nat.le_refl _, fun _ _ => rfl⟩
  | case2 tok q c s hb ih =>
    rw [lex, if_pos hb] at h
    exact (ih hm h).skip (special_of_blank hb) (Nat.zero_le _)
  | case3 tok q c s hb he ih =>
    rw [lex, if_neg hb, if_pos he] at h
    exact (ih trivial h).skip (special_of_escape he) (Nat.zero_le _)
  | case4 tok q c s hb he hq ih =>
    rw [lex, if_neg hb, if_neg he, if_pos hq] at h
    exact (ih hq h).skip (special_of_quote hq) (Nat.zero_le _)
  | case5 tok q c s hb he hq ih =>
    rw [lex, if_neg hb, if_neg he, if_neg hq] at h
    obtain rfl : tok = [] := hm
    have hword : Kept .word ([] ++ [c]) s ws := ih trivial h
    exact hword.take (Nat.le_refl _)
  | case6 tok q =>
    rw [lex] at h
    obtain rfl := Except.ok.inj h
    exact kept_end tok q
  | case7 tok q c s hb htok ih =>
    rw [lex, if_pos hb, if_pos htok] at h
    have hnil : tok = [] := of_decide_eq_true (Bool.and_eq_true_iff.1 htok).1
    subst hnil
    exact (ih rfl h).skip (special_of_blank hb) (Nat.zero_le _)
  | case8 tok q c s hb htok ih =>
    rw [lex, if_pos hb, if_neg htok] at h
    obtain ⟨ws', hws, rfl⟩ := map_ok h
    exact ((ih rfl hws).cons tok).skip (special_of_blank hb) (Nat.zero_le _)
  | case9 tok q c s hb hq ih =>
    rw [lex, if_neg hb, if_pos hq] at h
    exact (ih hq h).skip (special_of_quote hq) (Nat.zero_le _)
  | case10 tok q c s hb hq he ih =>
    rw [lex, if_neg hb, if_neg hq, if_pos he] at h
    exact (ih trivial h).skip (special_of_escape he) (Nat.zero_le _)
  | case11 tok q c s hb hq he ih =>
    rw [lex, if_neg hb, if_neg hq, if_neg he] at h
    exact (ih trivial h).take (Nat.le_refl _)
  | case12 k tok q =>
    rw [lex] at h
    cases h
  | case13 tok q k s ih =>
    rw [lex, if_pos rfl] at h
    exact (ih trivial h).skip (special_of_quote hm) (Nat.le_refl _)
  | case14 k tok q c s hck he ih =>
    rw [lex, if_neg hck, if_pos he] at h
    exact (ih hm h).skip (special_of_escape (Bool.and_eq_true_iff.1 he).1) (Nat.le_refl _)
  | case15 k tok q c s hck he ih =>
    rw [lex, if_neg hck, if_neg he] at h
    exact (ih hm h).take (Nat.le_refl _)
  | case16 k tok q =>
    rw [lex] at h
    cases h
  | case17 tok q c s ih =>
    rw [lex] at h
    exact (ih trivial h).take (Nat.le_refl _)
  | case18 k tok q c s hc ih =>
    rw [lex, if_pos hc] at h
    exact (ih hm h).take (Nat.zero_le _)
  | case19 k tok q c s hc ih =>
    rw [lex, if_neg hc] at h
    exact (ih hm h).take_escaped

theorem split_kept {s : Str} {ws : List Str} (h : split s = .ok ws) : Kept .blank [] s ws :=
  lex_kept (m := .blank) rfl h

/-- A special character in a word is left out. -/
theorem word_special_size {tok : Str} {q : Bool} {c : Char} {s : Str} {ws : List Str} (hc : isSpecial c = true)
    (h : lex .word tok q (c :: s) = .ok ws) : size ws ≤ tok.length + s.length := by
  rw [lex] at h
  by_cases hb : isBlank c = true
  · rw [if_pos hb] at h
    split at h
    · have := (lex_kept (m := .blank) rfl h).size_le
      simp only [Mode.pending, List.length_nil] at this
      omega
    · obtain ⟨ws', hws, rfl⟩ := map_ok h
      exact ((lex_kept (m := .blank) rfl hws).cons tok).size_le
  · rw [if_neg hb] at h
    split at h
    · next hq =>
      have := (lex_kept (m := .quoted c) hq h).size_le
      omega
    · next hq =>
      have he : isEscape c = true := by simpa [isSpecial, hb, hq] using hc
      rw [if_pos he] at h
      exact (lex_kept (m := .escape none) trivial h).size_le

/-- So is one between words. -/
theorem blank_special_size {c : Char} {s : Str} {ws : List Str} (hc : isSpecial c = true)
    (h : lex .blank [] false (c :: s) = .ok ws) : size ws ≤ s.length := by
  have hle (m : Mode) (hm : m.Ok []) (hlex : lex m [] false s = .ok ws) : size ws ≤ s.length := by
    have := (lex_kept hm hlex).size_le
    simp only [List.length_nil] at this
    omega
  rw [lex] at h
  split at h
  · exact hle .blank rfl h
  · next hb =>
    split at h
    · exact hle (.escape none) trivial h
    · next he =>
      have hq : isQuote c = true := by simpa [isSpecial, hb, he] using hc
      rw [if_pos hq] at h
      exact hle (.quoted c) hq h

theorem first_special {s : Str} (hs : ¬ Ordinary s) : ∃ w c t, s = w ++ c :: t ∧ Ordinary w ∧ isSpecial c = true := by
  induction s with
  | nil => exact absurd (fun _ h => absurd h List.not_mem_nil) hs
  | cons d s ih =>
    by_cases hd : isSpecial d = true
    · exact ⟨[], d, s, rfl, fun _ h => absurd h List.not_mem_nil, hd⟩
    · have hd' : isSpecial d = false := by simpa using hd
      obtain ⟨w, c, t, rfl, hw, hc⟩ := ih fun h => hs (List.forall_mem_cons.2 ⟨hd', h⟩)
      exact ⟨d :: w, c, t, rfl, List.forall_mem_cons.2 ⟨hd', hw⟩, hc⟩

/-- A text with a special character splits into words smaller than it. -/
theorem size_lt_of_special {s : Str} {ws : List Str} (hs : ¬ Ordinary s) (h : split s = .ok ws) : size ws < s.length := by
  obtain ⟨w, c, t, rfl, hw, hc⟩ := first_special hs
  rcases w with _ | ⟨d, w⟩
  · have := blank_special_size hc h
    simp only [List.nil_append, List.length_cons]
    omega
  · obtain ⟨⟨hb, hq, he⟩, hw⟩ := ordinary_cons hw
    rw [split, List.cons_append, lex] at h
    simp only [hb, hq, he, Bool.false_eq_true, if_false] at h
    rw [lex_word hw] at h
    have := word_special_size hc h
    simp only [List.length_append, List.length_cons, List.length_nil] at this ⊢
    omega

/-- A text is its own only word exactly when it is ordinary and not empty. -/
theorem split_eq_self_iff {s : Str} : split s = .ok [s] ↔ Ordinary s ∧ s ≠ [] := by
  constructor
  · intro h
    constructor
    · by_contra hs
      have := size_lt_of_special hs h
      simp [size] at this
    · rintro rfl
      cases h
  · rintro ⟨hs, hne⟩
    exact split_ordinary hs hne

end ProGuide.Lib.Shlex
