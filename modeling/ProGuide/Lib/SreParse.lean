import ProGuide.Lib.Regex
/-!
# Python 2's pattern syntax

The parser of Python 2.7's `re` module (`sre_parse`), from a pattern to a
`Regex.Re`, with its errors, and the checks `sre_compile` makes afterwards.
A token of a pattern is a character, or a backslash with the character after
it.
-/
open ProGuide.Lib.Regex

namespace ProGuide.Lib.SreParse

/-- An exception of `re.compile`: `re.error` or `OverflowError`. -/
inductive Error where
  | error (msg : String)
  | overflowError (msg : String)
  deriving DecidableEq, Repr

def bogusEnd : Error := .error "bogus escape (end of line)"

def bogusEscape : Error := .error "bogus escape"

/-! ## Characters -/

def isOct (c : Char) : Bool := '0' ≤ c && c ≤ '7'

def isHex (c : Char) : Bool := isDigit c || ('a' ≤ c && c ≤ 'f') || ('A' ≤ c && c ≤ 'F')

def isWhitespace (c : Char) : Bool := c = ' ' || (9 ≤ c.toNat && c.toNat ≤ 13)

def isIdent (c : Char) : Bool := ('a' ≤ c && c ≤ 'z') || ('A' ≤ c && c ≤ 'Z') || c = '_'

/-- A valid group name. -/
def isName : List Char → Bool
  | [] => false
  | c :: s => isIdent c && s.all (fun d => isIdent d || isDigit d)

def digitVal (c : Char) : Nat :=
  if isDigit c then c.toNat - '0'.toNat
  else if 'a' ≤ c then c.toNat - 'a'.toNat + 10 else c.toNat - 'A'.toNat + 10

/-- `int(s, base)` of a text of digits. -/
def intOf (base : Nat) (s : List Char) : Nat := s.foldl (fun n c => n * base + digitVal c) 0

/-- The character of an octal or hexadecimal escape. -/
def byteOf (n : Nat) : Char := Char.ofNat (n % 256)

/-- At most `n` leading characters that satisfy `p`, and the rest. -/
def takeUpTo (p : Char → Bool) : Nat → List Char → List Char × List Char
  | 0, s => ([], s)
  | _ + 1, [] => ([], [])
  | n + 1, c :: s => if p c then (c :: (takeUpTo p n s).1, (takeUpTo p n s).2) else ([], c :: s)

/-! ## Escapes -/

/-- `ESCAPES`. -/
def escapes : Char → Option Char
  | 'a' => some (Char.ofNat 7)
  | 'b' => some (Char.ofNat 8)
  | 'f' => some (Char.ofNat 12)
  | 'n' => some '\n'
  | 'r' => some '\r'
  | 't' => some '\t'
  | 'v' => some (Char.ofNat 11)
  | '\\' => some '\\'
  | _ => none

/-- The `CATEGORIES` that stand for a set of characters. -/
def categories : Char → Option Item
  | 'd' => some (.category false .digit)
  | 'D' => some (.category true .digit)
  | 's' => some (.category false .space)
  | 'S' => some (.category true .space)
  | 'w' => some (.category false .word)
  | 'W' => some (.category true .word)
  | _ => none

/-- The `CATEGORIES` that stand for a position. -/
def positions : Char → Option Anchor
  | 'A' => some .textStart
  | 'Z' => some .textEnd
  | 'b' => some .boundary
  | 'B' => some .notBoundary
  | _ => none

/-- `_class_escape`: the escape `\c` in a character set, `s` after it. -/
def classEscape (c : Char) (s : List Char) : Except Error (Item × List Char) :=
  match escapes c, categories c with
  | some d, _ => .ok (.lit d, s)
  | none, some k => .ok (k, s)
  | none, none =>
    if c = 'x' then
      let (ds, s') := takeUpTo isHex 2 s
      if ds.length = 2 then .ok (.lit (byteOf (intOf 16 ds)), s') else .error bogusEscape
    else if isOct c then
      let (ds, s') := takeUpTo isOct 2 s
      .ok (.lit (byteOf (intOf 8 (c :: ds))), s')
    else if isDigit c then .error bogusEscape
    else .ok (.lit c, s)

/-- What the parser has seen of the whole pattern. -/
structure PState where
  flags : Flags := {}
  groups : Nat := 1
  opened : List Nat := []
  names : List (List Char × Nat) := []
  deriving DecidableEq, Repr

/-- A reference to group `g`, which must be closed. -/
def groupRef (st : PState) (g : Nat) : Except Error Re :=
  if st.groups ≤ g then .error bogusEscape
  else if g ∈ st.opened then .error (.error "cannot refer to open group")
  else .ok (.backref g)

/-- `_escape`: the escape `\c` outside a set, `s` after it. -/
def escape (st : PState) (c : Char) (s : List Char) : Except Error (Re × List Char) :=
  match positions c, categories c, escapes c with
  | some a, _, _ => .ok (.anchor a, s)
  | none, some k, _ => .ok (.set false [k], s)
  | none, none, some d => .ok (.lit d, s)
  | none, none, none =>
    if c = 'x' then
      let (ds, s') := takeUpTo isHex 2 s
      if ds.length = 2 then .ok (.lit (byteOf (intOf 16 ds)), s') else .error bogusEscape
    else if c = '0' then
      let (ds, s') := takeUpTo isOct 2 s
      .ok (.lit (byteOf (intOf 8 ds)), s')
    else if isDigit c then
      match s with
      | d :: e :: s' =>
        if isOct c && isOct d && isOct e then .ok (.lit (byteOf (intOf 8 [c, d, e])), s')
        else if isDigit d then (groupRef st (intOf 10 [c, d])).map (·, e :: s')
        else (groupRef st (intOf 10 [c])).map (·, s)
      | [d] =>
        if isDigit d then (groupRef st (intOf 10 [c, d])).map (·, [])
        else (groupRef st (intOf 10 [c])).map (·, s)
      | [] => (groupRef st (intOf 10 [c])).map (·, [])
    else .ok (.lit c, s)

/-! ## Character sets -/

def endOfRegex : Error := .error "unexpected end of regular expression"

def badRange : Error := .error "bad character range"

/-- One member of a set, its token at the head of the text. -/
def setCode : List Char → Except Error (Item × List Char)
  | [] => .error endOfRegex
  | ['\\'] => .error bogusEnd
  | '\\' :: c :: s => classEscape c s
  | c :: s => .ok (.lit c, s)

/-- The members of a set up to its `]`, those read so far in `acc`, last first. -/
def parseSet : Nat → List Char → List Item → Except Error (List Item × List Char)
  | 0, _, _ => .error endOfRegex
  | n + 1, s, acc =>
    if s.head? = some ']' && acc ≠ [] then .ok (acc.reverse, s.tail)
    else do
      let (code1, s) ← setCode s
      match s with
      | '-' :: ']' :: s => return ((Item.lit '-' :: code1 :: acc).reverse, s)
      | '-' :: s =>
        let (code2, s) ← setCode s
        match code1, code2 with
        | .lit lo, .lit hi => if hi < lo then .error badRange else parseSet n s (.range lo hi :: acc)
        | _, _ => .error badRange
      | s => parseSet n s (code1 :: acc)

/-- The expression of a set. -/
def setRe : Bool → List Item → Re
  | false, [.lit c] => .lit c
  | true, [.lit c] => .notLit c
  | neg, items => .set neg items

/-! ## Repeats -/

/-- The bounds at the head of the text after `{`, when it has the form of a
repeat. `{}` has not. -/
def braces (s : List Char) : Option ((List Char × List Char) × List Char) :=
  if s.head? = some '}' then none
  else
    let (lo, s1) := s.span isDigit
    let (hi, s2) := match s1 with
      | ',' :: t => t.span isDigit
      | _ => (lo, s1)
    match s2 with
    | '}' :: s3 => some ((lo, hi), s3)
    | _ => none

def tooLarge : Error := .overflowError "the repetition number is too large"

/-- The numbers of a repeat's bounds. -/
def bounds (lo hi : List Char) : Except Error (Nat × Option Nat) :=
  if maxRepeat ≤ intOf 10 lo then .error tooLarge
  else if hi = [] then .ok (intOf 10 lo, none)
  else if maxRepeat ≤ intOf 10 hi then .error tooLarge
  else if intOf 10 hi < intOf 10 lo then .error (.error "bad repeat interval")
  else .ok (intOf 10 lo, some (intOf 10 hi))

/-- The items with the last of them repeated, and what follows a `?` that makes
the repeat lazy. -/
def repeatLast (lo : Nat) (hi : Option Nat) (s : List Char) : List Re → Except Error (List Re × List Char)
  | [] | .anchor _ :: _ => .error (.error "nothing to repeat")
  | .rep _ _ _ _ :: _ => .error (.error "multiple repeat")
  | r :: acc =>
    match s with
    | '?' :: s => .ok (.rep false lo hi r :: acc, s)
    | s => .ok (.rep true lo hi r :: acc, s)

/-! ## Groups -/

/-- A name up to `close`. -/
def scanName (close : Char) : List Char → Except Error (List Char × List Char)
  | [] => .error (.error "unterminated name")
  | ['\\'] => .error bogusEnd
  | '\\' :: c :: s => (scanName close s).map fun p => ('\\' :: c :: p.1, p.2)
  | c :: s => if c = close then .ok ([], s) else (scanName close s).map fun p => (c :: p.1, p.2)

/-- A valid name up to `close`; `what` words the error. -/
def groupName (close : Char) (what : String) (s : List Char) : Except Error (List Char × List Char) := do
  let (name, s) ← scanName close s
  if name = [] then .error (.error "missing group name")
  else if isName name then return (name, s)
  else .error (.error what)

def knownGroup (st : PState) (name : List Char) : Except Error Nat :=
  match st.names.lookup name with
  | some g => .ok g
  | none => .error (.error "unknown group name")

/-- `int(s)` of a condition's text: blanks around it and a sign are allowed. -/
def condNumber (s : List Char) : Except Error Nat :=
  let t := ((s.dropWhile isWhitespace).reverse.dropWhile isWhitespace).reverse
  let (neg, ds) := match t with
    | '-' :: ds => (true, ds)
    | '+' :: ds => (false, ds)
    | ds => (false, ds)
  if ds = [] || !ds.all isDigit then .error (.error "bad character in group name")
  else if neg && intOf 10 ds ≠ 0 then .error (.overflowError "negative group number")
  else .ok (intOf 10 ds)

/-- The group of a condition `(?(...)`; `0` stands for none. -/
def condGroup (st : PState) (s : List Char) : Except Error (Nat × List Char) := do
  let (name, s) ← scanName ')' s
  if name = [] then .error (.error "missing group name")
  else if isName name then return (← knownGroup st name, s)
  else return (← condNumber name, s)

/-- What follows the `)` of a comment. -/
def skipComment : List Char → Except Error (List Char)
  | [] => .error (.error "unbalanced parenthesis")
  | ['\\'] => .error bogusEnd
  | '\\' :: _ :: s => skipComment s
  | c :: s => if c = ')' then .ok s else skipComment s

/-- What follows the end of a line, in a verbose pattern. -/
def skipLine : List Char → Except Error (List Char)
  | [] => .ok []
  | ['\\'] => .error bogusEnd
  | '\\' :: _ :: s => skipLine s
  | c :: s => if c = '\n' then .ok s else skipLine s

/-- `FLAGS`; the locale flag changes nothing in the C locale. -/
def setFlag (fl : Flags) : Char → Option Flags
  | 'i' => some { fl with ignorecase := true }
  | 'L' => some fl
  | 'm' => some { fl with multiline := true }
  | 's' => some { fl with dotall := true }
  | 'x' => some { fl with verbose := true }
  | 't' => some { fl with template := true }
  | 'u' => some { fl with unicode := true }
  | _ => none

/-- The flags up to the `)` after them. -/
def parseFlags (fl : Flags) : List Char → Except Error (Flags × List Char)
  | [] => .error (.error "unexpected end of pattern")
  | c :: s =>
    match setFlag fl c with
    | some fl => parseFlags fl s
    | none => if c = ')' then .ok (fl, s) else .error (.error "unknown extension")

def openGroup (st : PState) (name : Option (List Char)) : Except Error PState :=
  match name with
  | none => .ok { st with groups := st.groups + 1, opened := st.groups :: st.opened }
  | some nm =>
    if (st.names.lookup nm).isSome then .error (.error "redefinition of group name")
    else .ok { st with groups := st.groups + 1, opened := st.groups :: st.opened, names := (nm, st.groups) :: st.names }

def closeGroup (st : PState) (g : Nat) : PState := { st with opened := st.opened.erase g }

/-- What follows a closing parenthesis. -/
def close : List Char → Except Error (List Char)
  | ')' :: s => .ok s
  | _ => .error (.error "unbalanced parenthesis")

/-! ## Patterns -/

/-- What a parenthesis opens. -/
inductive Opening where
  /-- A comment or an inline flag: no item. -/
  | nothing
  | ref (r : Re)
  | look (behind neg : Bool)
  | cond (g : Nat)
  /-- A group, by its number if it captures. -/
  | group (g : Option Nat)
  deriving DecidableEq, Repr

/-- Read what follows `(` up to the contents of the group, if it has any. -/
def opening (st : PState) : List Char → Except Error (Opening × List Char × PState)
  | '?' :: 'P' :: '<' :: s => do
    let (name, s) ← groupName '>' "bad character in group name" s
    let st' ← openGroup st (some name)
    return (.group (some st.groups), s, st')
  | '?' :: 'P' :: '=' :: s => do
    let (name, s) ← groupName ')' "bad character in backref group name" s
    return (.ref (.backref (← knownGroup st name)), s, st)
  | '?' :: 'P' :: s =>
    .error (.error (if s = [] then "unexpected end of pattern" else "unknown specifier"))
  | '?' :: ':' :: s => .ok (.group none, s, st)
  | '?' :: '#' :: s => do return (.nothing, ← skipComment s, st)
  | '?' :: '=' :: s => .ok (.look false false, s, st)
  | '?' :: '!' :: s => .ok (.look false true, s, st)
  | '?' :: '<' :: '=' :: s => .ok (.look true false, s, st)
  | '?' :: '<' :: '!' :: s => .ok (.look true true, s, st)
  | '?' :: '<' :: _ => .error (.error "syntax error")
  | '?' :: '(' :: s => do
    let (g, s) ← condGroup st s
    return (if g = 0 then .group none else .cond g, s, st)
  | '?' :: s =>
    if (s.head?.bind (setFlag st.flags)).isNone then .error (.error "unexpected end of pattern")
    else do
      let (fl, s) ← parseFlags st.flags s
      return (.nothing, s, { st with flags := fl })
  | s => do return (.group (some st.groups), s, ← openGroup st none)

mutual

/-- `_parse_sub`: branches between bars. -/
def parseSub : Nat → List Char → PState → Except Error (Re × List Char × PState)
  | 0, _, _ => .error (.error "parser error")
  | n + 1, s, st => do
    let (items, s, st) ← parse n s st []
    match s with
    | '|' :: s =>
      let (r, s, st) ← parseSub n s st
      return (.alt (catAll items) r, s, st)
    | s => return (catAll items, s, st)

/-- `_parse`: items up to a bar, a closing parenthesis or the end, those read
so far in `acc`, last first. -/
def parse : Nat → List Char → PState → List Re → Except Error (List Re × List Char × PState)
  | 0, _, _, _ => .error (.error "parser error")
  | _ + 1, [], st, acc => .ok (acc.reverse, [], st)
  | n + 1, c :: s, st, acc =>
    if c = '|' || c = ')' then .ok (acc.reverse, c :: s, st)
    else if st.flags.verbose && isWhitespace c then parse n s st acc
    else if st.flags.verbose && c = '#' then do parse n (← skipLine s) st acc
    else match c with
      | '\\' =>
        match s with
        | [] => .error bogusEnd
        | e :: s => do
          let (r, s) ← escape st e s
          parse n s st (r :: acc)
      | '[' => do
        let neg := s.head? = some '^'
        let (items, s) ← parseSet (s.length + 1) (if neg then s.tail else s) []
        parse n s st (setRe neg items :: acc)
      | '*' => do
        let (acc, s) ← repeatLast 0 none s acc
        parse n s st acc
      | '+' => do
        let (acc, s) ← repeatLast 1 none s acc
        parse n s st acc
      | '?' => do
        let (acc, s) ← repeatLast 0 (some 1) s acc
        parse n s st acc
      | '{' =>
        match braces s with
        | none => parse n s st (.lit '{' :: acc)
        | some ((lo, hi), s) => do
          let (lo, hi) ← bounds lo hi
          let (acc, s) ← repeatLast lo hi s acc
          parse n s st acc
      | '.' => parse n s st (.any :: acc)
      | '^' => parse n s st (.anchor .lineStart :: acc)
      | '$' => parse n s st (.anchor .lineEnd :: acc)
      | '(' => do
        let (o, s, st) ← opening st s
        match o with
        | .nothing => parse n s st acc
        | .ref r => parse n s st (r :: acc)
        | .look behind neg =>
          let (r, s, st) ← parseSub n s st
          parse n (← close s) st (.look behind neg r :: acc)
        | .group g =>
          let (r, s, st) ← parseSub n s st
          parse n (← close s) (g.elim st (closeGroup st)) (.group g r :: acc)
        | .cond g =>
          let (yes, s, st) ← parse n s st []
          match s with
          | '|' :: s =>
            let (no, s, st) ← parse n s st []
            if s.head? = some '|' then .error (.error "conditional backref with more than two branches")
            else parse n (← close s) st (.group none (.cond g (catAll yes) (catAll no)) :: acc)
          | s => parse n (← close s) st (.group none (.cond g (catAll yes) .empty) :: acc)
      | c => parse n s st (.lit c :: acc)

end

/-- `sre_parse.parse` under flags: the whole pattern. -/
def parseAll (fl : Flags) (pattern : List Char) : Except Error (Re × PState) := do
  let (r, s, st) ← parseSub (2 * pattern.length + 3) pattern { flags := fl }
  match s with
  | [] => return (r, st)
  | ')' :: _ => .error (.error "unbalanced parenthesis")
  | _ => .error (.error "bogus characters at end of regular expression")

/-! ## Compilation -/

/-- What `sre_compile` refuses in an expression, for a pattern of `groups` groups. -/
def refused (fl : Flags) (groups : Nat) : Re → Option Error
  | .cat r t | .alt r t => (refused fl groups r).or (refused fl groups t)
  | .group _ r => refused fl groups r
  | .cond n r t =>
    if groups ≤ n then some (.error "invalid SRE code") else (refused fl groups r).or (refused fl groups t)
  | .look behind _ r =>
    if behind && (width r).1 ≠ (width r).2 then some (.error "look-behind requires fixed-width pattern")
    else refused fl groups r
  | .rep _ _ _ r =>
    if fl.template then some (.error "internal: unsupported template operator") else refused fl groups r
  | _ => none

/-- `re.compile(pattern)`. -/
def compile (pattern : List Char) : Except Error (Flags × Re) := do
  let (r, st) ← parseAll {} pattern
  -- a verbose flag inside the pattern has the whole of it parsed again
  let (r, st) ← if st.flags.verbose then parseAll st.flags pattern else .ok (r, st)
  match refused st.flags st.groups r with
  | some e => .error e
  | none =>
    if 100 < st.groups then .error (.error "sorry, but this version only supports 100 named groups")
    else return (st.flags, r)

/-- `re.sub(pattern, repl, text)` for a replacement without escapes. -/
def sub (pattern repl text : List Char) : Except Error (List Char) := do
  let (fl, r) ← compile pattern
  return Regex.sub fl r repl text

end ProGuide.Lib.SreParse
