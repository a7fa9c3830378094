import Mathlib.Data.List.Basic
/-!
# Backtracking regular expressions

The syntax tree of a Perl-style regular expression, and a matcher that lists
every outcome of a match in the order a backtracking engine tries them. The
engine's match is the first of the list. Characters stand for the bytes of a
byte string, and the case and word rules are those of ASCII unless the `u` flag
is set.
-/

namespace ProGuide.Lib.Regex

/-! ## Syntax -/

inductive Category where
  | digit | space | word
  deriving DecidableEq, Repr

/-- A member of a character set. -/
inductive Item where
  | lit (c : Char)
  | range (lo hi : Char)
  | category (neg : Bool) (k : Category)
  deriving DecidableEq, Repr

inductive Anchor where
  | lineStart | lineEnd | textStart | textEnd | boundary | notBoundary
  deriving DecidableEq, Repr

inductive Re where
  | empty
  | lit (c : Char)
  | notLit (c : Char)
  | any
  | set (neg : Bool) (items : List Item)
  | anchor (a : Anchor)
  | cat (r t : Re)
  | alt (r t : Re)
  | group (n : Option Nat) (r : Re)
  | backref (n : Nat)
  | cond (n : Nat) (yes no : Re)
  | look (behind neg : Bool) (r : Re)
  | rep (greedy : Bool) (lo : Nat) (hi : Option Nat) (r : Re)
  deriving DecidableEq, Repr

/-- The flags of a pattern. They hold for all of it. -/
structure Flags where
  ignorecase : Bool := false
  multiline : Bool := false
  dotall : Bool := false
  verbose : Bool := false
  unicode : Bool := false
  template : Bool := false
  deriving DecidableEq, Repr

/-- A sequence of expressions. -/
def catAll : List Re → Re
  | [] => .empty
  | r :: rs => .cat r (catAll rs)

/-- A literal text. -/
def lits (s : List Char) : Re := catAll (s.map .lit)

/-- The engine's bound on a repeat count. -/
def maxRepeat : Nat := 4294967295

/-- The least and greatest number of characters an expression reads, as far as
the engine works it out. -/
def width : Re → Nat × Nat
  | .lit _ | .notLit _ | .any | .set _ _ => (1, 1)
  | .empty | .anchor _ | .backref _ | .cond _ _ _ | .look _ _ _ => (0, 0)
  | .cat r t => (min ((width r).1 + (width t).1) (maxRepeat - 1), min ((width r).2 + (width t).2) maxRepeat)
  | .alt r t => (min (width r).1 (width t).1, max (width r).2 (width t).2)
  | .group _ r => width r
  | .rep _ lo hi r =>
    (min ((width r).1 * lo) (maxRepeat - 1), min ((width r).2 * hi.getD maxRepeat) maxRepeat)

/-! ## Characters -/

def lower (c : Char) : Char := c.toLower

def isDigit (c : Char) : Bool := '0' ≤ c && c ≤ '9'

def isSpace (fl : Flags) (c : Char) : Bool :=
  c = ' ' || (9 ≤ c.toNat && c.toNat ≤ 13) ||
    (fl.unicode && ((28 ≤ c.toNat && c.toNat ≤ 31) || c.toNat = 133 || c.toNat = 160))

/-- The letters, digits and numerals of Latin-1 beyond ASCII. -/
def isLatinAlnum (n : Nat) : Bool :=
  n = 170 || n = 178 || n = 179 || n = 181 || n = 185 || n = 186 || (188 ≤ n && n ≤ 190) ||
    (192 ≤ n && n ≤ 255 && n ≠ 215 && n ≠ 247)

def isWord (fl : Flags) (c : Char) : Bool :=
  c.isAlphanum || c = '_' || (fl.unicode && isLatinAlnum c.toNat)

def Category.holds (fl : Flags) : Category → Char → Bool
  | .digit, c => isDigit c
  | .space, c => isSpace fl c
  | .word, c => isWord fl c

/-- `c` of the pattern stands for `d` of the text. -/
def same (fl : Flags) (c d : Char) : Bool := c = d || (fl.ignorecase && lower c = lower d)

def Item.holds (fl : Flags) : Item → Char → Bool
  | .lit c, d => same fl c d
  | .range lo hi, d =>
    (lo ≤ d && d ≤ hi) ||
      (fl.ignorecase && ((lo ≤ d.toLower && d.toLower ≤ hi) || (lo ≤ d.toUpper && d.toUpper ≤ hi)))
  | .category neg k, d => k.holds fl d != neg

/-! ## Matching -/

/-- A place in the text: what has been read, last first, what is left, and the
groups captured so far, latest first. -/
structure St where
  before : List Char
  after : List Char
  caps : List (Nat × List Char) := []
  deriving DecidableEq, Repr

/-- Read one character that satisfies `p`. -/
def St.eat (p : Char → Bool) : St → List St
  | ⟨_, [], _⟩ => []
  | ⟨b, c :: a, k⟩ => if p c then [⟨c :: b, a, k⟩] else []

/-- What was read between `s` and a later `t`. -/
def St.since (s t : St) : List Char := (t.before.take (t.before.length - s.before.length)).reverse

def Anchor.holds (fl : Flags) (s : St) : Anchor → Bool
  | .textStart => s.before = []
  | .textEnd => s.after = []
  | .lineStart => s.before = [] || (fl.multiline && s.before.head? = some '\n')
  | .lineEnd => s.after = [] || s.after = ['\n'] || (fl.multiline && s.after.head? = some '\n')
  | .boundary =>
    !(s.before = [] && s.after = []) && (s.before.head?.any (isWord fl) != s.after.head?.any (isWord fl))
  | .notBoundary =>
    !(s.before = [] && s.after = []) && (s.before.head?.any (isWord fl) == s.after.head?.any (isWord fl))

/-- The outcomes of repeating `body` after `n` rounds, the last of them begun
with `last` characters left. A round that reads nothing is not repeated. -/
def loop (greedy : Bool) (lo : Nat) (hi : Option Nat) (body : St → List St) :
    Nat → Nat → Option Nat → St → List St
  | 0, _, _, _ => []
  | fuel + 1, n, last, s =>
    if n < lo then (body s).flatMap (loop greedy lo hi body fuel (n + 1) last)
    else
      let more :=
        if hi.all (n < ·) && last ≠ some s.after.length then
          (body s).flatMap (loop greedy lo hi body fuel (n + 1) (some s.after.length))
        else []
      if greedy then more ++ [s] else s :: more

/-- The outcomes of matching at a place, in the order they are tried. -/
def run (fl : Flags) : Re → St → List St
  | .empty, s => [s]
  | .lit c, s => s.eat (same fl c)
  | .notLit c, s => s.eat (fun d => !same fl c d)
  | .any, s => s.eat (fun d => fl.dotall || d ≠ '\n')
  | .set neg items, s => s.eat (fun d => items.any (·.holds fl d) != neg)
  | .anchor a, s => if a.holds fl s then [s] else []
  | .cat r t, s => (run fl r s).flatMap (run fl t)
  | .alt r t, s => run fl r s ++ run fl t s
  | .group none r, s => run fl r s
  | .group (some n) r, s => (run fl r s).map fun t => { t with caps := (n, s.since t) :: t.caps }
  | .backref n, s =>
    match s.caps.lookup n with
    | none => []
    | some w => w.foldl (fun ss c => ss.flatMap (·.eat (same fl c))) [s]
  | .cond n yes no, s => if (s.caps.lookup n).isSome then run fl yes s else run fl no s
  | .look behind neg r, s =>
    let back := if behind then (width r).1 else 0
    -- before the start of the text a look-behind does not hold
    let found :=
      if s.before.length < back then []
      else run fl r ⟨s.before.drop back, (s.before.take back).reverse ++ s.after, s.caps⟩
    match found with
    | [] => if neg then [s] else []
    | t :: _ => if neg then [] else [{ s with caps := t.caps }]
  | .rep greedy lo hi r, s => loop greedy lo hi (run fl r) (lo + s.after.length + 2) 0 none s

/-- `re.sub` from a place on: `m` lists a match's outcomes. An empty match is
dropped where the match before it ended (`adj`). -/
def subFrom (m : St → List St) (repl : List Char) : Nat → List Char → List Char → Bool → List Char
  | 0, _, _, _ => []
  | fuel + 1, before, after, adj =>
    let copy := fun _ : Unit =>
      match after with
      | [] => []
      | c :: rest => c :: subFrom m repl fuel (c :: before) rest false
    match m ⟨before, after, []⟩ with
    | [] => copy ()
    | t :: _ =>
      if t.after.length < after.length then repl ++ subFrom m repl fuel t.before t.after true
      else (if adj then [] else repl) ++ copy ()

/-- `text` with every match of `r` replaced by `repl`. -/
def sub (fl : Flags) (r : Re) (repl text : List Char) : List Char :=
  subFrom (run fl r) repl (text.length + 1) [] text false

end ProGuide.Lib.Regex
