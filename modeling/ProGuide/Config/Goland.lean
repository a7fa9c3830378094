import ProGuide.Lib.Shlex
import ProGuide.Lib.Text
/-!
# Opening a file in GoLand

`goland-cmd.py`: the command line is put together as one text, which `shlex`
then takes apart again.
-/
open ProGuide.Lib ProGuide.Lib.Text ProGuide.Lib.Shlex

namespace ProGuide.Config

/-! ## The script -/

def cmdHead : Str := "open -na \"GoLand.app\" --args  ".toList

/-- `ss.find("arren") == -1` decides whether the working directory goes before
the path. -/
def nameArren : Str := "arren".toList

def lineOption : Str := " --line ".toList

def golandCmd (cwd ss : Str) : Str :=
  let arr := Text.split [':'] ss
  let head := if contains nameArren ss then [] else cwd ++ ['/']
  let line := match arr with
    | [_, n] => lineOption ++ n
    | _ => []
  cmdHead ++ line ++ [' '] ++ head ++ arr.headD []

/-- The arguments of `subprocess.call`. -/
def goland (cwd ss : Str) : Except Shlex.Error (List Str) := Shlex.split (golandCmd cwd ss)

/-! ## What it should run -/

def isDigit (c : Char) : Bool := '0' ≤ c && c ≤ '9'

/-- A call for a path, with a line number or without, in a working directory. -/
structure Call where
  cwd : Str
  path : Str
  line : Option Str
  cwd_absolute : cwd.head? = some '/'
  path_ne : path ≠ []
  path_colon : ':' ∉ path
  line_decimal : ∀ n ∈ line, n ≠ [] ∧ ∀ c ∈ n, isDigit c = true

namespace Call

/-- The script's argument, `P` or `P:N`. -/
def argument (c : Call) : Str :=
  match c.line with
  | none => c.path
  | some n => c.path ++ ':' :: n

def isAbsolute (c : Call) : Bool := c.path.head? = some '/'

/-- The file meant: the path if it is absolute, else joined to the working
directory. -/
def target (c : Call) : Str := if c.isAbsolute then c.path else c.cwd ++ '/' :: c.path

def openArgs : List Str := ["open".toList, "-na".toList, "GoLand.app".toList, "--args".toList]

def lineArgs (c : Call) : List Str :=
  match c.line with
  | none => []
  | some n => ["--line".toList, n]

/-- The arguments that open the file. -/
def wanted (c : Call) : List Str := openArgs ++ c.lineArgs ++ [c.target]

/-! ## What it runs -/

/-- The script takes the path to be absolute. -/
def takenAbsolute (c : Call) : Bool := contains nameArren c.argument

/-- The last part of the command line. -/
def written (c : Call) : Str := if c.takenAbsolute then c.path else c.cwd ++ '/' :: c.path

def lineText (c : Call) : Str :=
  match c.line with
  | none => []
  | some n => lineOption ++ n

theorem colon_not_digit {n : Str} (h : ∀ c ∈ n, isDigit c = true) : ':' ∉ n := by
  intro hc
  have := h _ hc
  cases this

theorem split_argument (c : Call) : Text.split [':'] c.argument = c.path :: c.line.toList := by
  have hfree {s : Str} (hs : ':' ∉ s) : ¬ [':'] <:+: s := fun h => hs (h.subset (List.mem_singleton.2 rfl))
  have hpath := hfree c.path_colon
  unfold argument
  cases hl : c.line with
  | none => exact split_of_free hpath
  | some n =>
    have hn := hfree (colon_not_digit (c.line_decimal n (by rw [hl]; rfl)).2)
    have hjoin : c.path ++ ':' :: n = List.intercalate [':'] [c.path, n] := by simp
    simp only [hjoin]
    refine split_join (List.cons_ne_nil _ _) (unbordered_cons List.not_mem_nil) _ (List.cons_ne_nil _ _) ?_
    simp [hpath, hn]

theorem golandCmd_eq (c : Call) : golandCmd c.cwd c.argument = cmdHead ++ (c.lineText ++ ' ' :: c.written) := by
  rw [golandCmd, split_argument, written, takenAbsolute, lineText]
  cases c.line <;> cases contains nameArren c.argument <;> simp

theorem digit_ordinary {c : Char} (h : isDigit c = true) : isSpecial c = false := by
  have hall : ∀ d ∈ [' ', '\t', '\r', '\n', '\'', '"', '\\'], isDigit d = false := forall_mem_of_all rfl
  cases hc : isSpecial c with
  | false => rfl
  | true =>
    have hmem : c ∈ [' ', '\t', '\r', '\n', '\'', '"', '\\'] := by
      simpa [isSpecial, isBlank, isQuote, isEscape, or_assoc] using hc
    rw [hall c hmem] at h
    cases h

/-- The words before the path, and the words of the path. -/
theorem goland_eq (c : Call) :
    goland c.cwd c.argument = (Shlex.split c.written).map (openArgs ++ c.lineArgs ++ ·) := by
  have hhead (s : Str) : lex .blank [] false (cmdHead ++ s) = (lex .blank [] false s).map (openArgs ++ ·) := by
    have hstep : lex .blank [] false (cmdHead ++ s) = ((((lex .blank [] false s).map ("--args".toList :: ·)).map
      ("GoLand.app".toList :: ·)).map ("-na".toList :: ·)).map ("open".toList :: ·) := rfl
    rw [hstep]
    cases lex .blank [] false s <;> rfl
  have hline : lex .blank [] false (c.lineText ++ ' ' :: c.written) =
      (lex .blank [] false c.written).map (c.lineArgs ++ ·) := by
    have hspace : lex .blank [] false (' ' :: c.written) = lex .blank [] false c.written := rfl
    unfold lineText lineArgs
    cases hl : c.line with
    | none =>
      rw [List.nil_append, hspace]
      cases lex .blank [] false c.written <;> rfl
    | some n =>
      obtain ⟨hne, hdigits⟩ := c.line_decimal n (by rw [hl]; rfl)
      have hoption (s : Str) : lex .blank [] false (lineOption ++ s) = (lex .blank [] false s).map ("--line".toList :: ·) := rfl
      rw [List.append_assoc, hoption, lex_ordinary (fun d hd => digit_ordinary (hdigits d hd)) hne]
      cases lex .blank [] false c.written <;> rfl
  rw [goland, golandCmd_eq, Shlex.split, hhead, hline, Shlex.split]
  cases lex .blank [] false c.written <;> simp [Except.map]

/-- The words of the path are the file meant alone. -/
theorem split_written_iff (c : Call) :
    Shlex.split c.written = .ok [c.target] ↔ c.takenAbsolute = c.isAbsolute ∧ Ordinary c.target := by
  have hne : c.target ≠ [] := by
    unfold target
    split
    · exact c.path_ne
    · simp
  by_cases htaken : c.takenAbsolute = c.isAbsolute
  · have hwritten : c.written = c.target := by rw [written, target, htaken]
    rw [hwritten, split_eq_self_iff]
    simp [htaken, hne]
  · simp only [htaken, false_and, iff_false]
    intro h
    have hkept := split_kept h
    cases habs : c.isAbsolute with
    | false =>
      -- the working directory is not in the text, so the words are too short for it
      have htrue : c.takenAbsolute = true := by simpa [habs] using htaken
      have hsize := hkept.size_le
      simp only [written, htrue, target, habs, size, Mode.pending, if_true, Bool.false_eq_true, if_false, List.map_cons,
        List.map_nil, List.sum_cons, List.sum_nil, List.length_append, List.length_cons, List.length_nil] at hsize
      omega
    | true =>
      -- the slash after the working directory is in the words, one too many for the path
      have hfalse : c.takenAbsolute = false := by simpa [habs] using htaken
      have hslash := hkept.ordinary '/' (by decide)
      simp only [written, hfalse, target, habs, occurrences, if_true, Bool.false_eq_true, if_false, List.map_cons,
        List.map_nil, List.sum_cons, List.sum_nil, List.count_append, List.count_cons_self, List.count_nil] at hslash
      omega

/-- The script opens the file exactly when it takes the path for what it is, and
nothing in the text of the file means anything to the lexer. -/
theorem goland_iff (c : Call) : goland c.cwd c.argument = .ok c.wanted ↔
    (c.takenAbsolute = true ↔ c.isAbsolute = true) ∧ Ordinary c.target := by
  have hwords : goland c.cwd c.argument = .ok c.wanted ↔ Shlex.split c.written = .ok [c.target] := by
    rw [goland_eq, wanted]
    cases Shlex.split c.written <;> simp [Except.map]
  rw [hwords, split_written_iff, Bool.eq_iff_iff]

end Call

/-- A relative path with a space in its name. -/
def spacedCall : Call where
  cwd := "/Users/darren".toList
  path := "my notes.go".toList
  line := some "12".toList
  cwd_absolute := rfl
  path_ne := List.cons_ne_nil _ _
  path_colon := by decide
  line_decimal n hn := by
    obtain rfl := Option.some.inj hn
    exact ⟨List.cons_ne_nil _ _, forall_mem_of_all rfl⟩

/-- The path is cut at the space. -/
theorem spaced_path_cut : goland spacedCall.cwd spacedCall.argument = .ok (Call.openArgs ++ ["--line".toList, "12".toList,
    "/Users/darren/my".toList, "notes.go".toList]) ∧
      goland spacedCall.cwd spacedCall.argument ≠ .ok spacedCall.wanted := by
  have hrun : goland spacedCall.cwd spacedCall.argument = .ok (Call.openArgs ++ ["--line".toList, "12".toList,
      "/Users/darren/my".toList, "notes.go".toList]) := by decide
  refine ⟨hrun, ?_⟩
  rw [hrun]
  decide

end ProGuide.Config
