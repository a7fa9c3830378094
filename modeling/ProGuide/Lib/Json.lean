import Mathlib.Algebra.Ring.Nat
import Mathlib.Data.List.Basic
/-!
# Strict JSON reading

A reader of JSON texts that follows Python's `json.loads`: control characters
are refused inside strings, escapes are interpreted, the last of two members
with one name counts, and nothing but blanks may follow the value. A text is a
list of UTF-16 code units, so `\uXXXX` stands for one of them.
-/

namespace ProGuide.Lib.Json

abbrev Units := List Nat

/-- The code units of a text of the basic plane. -/
def units (s : String) : Units := s.toList.map Char.toNat

inductive Value where
  | null
  | bool (b : Bool)
  | num (lexeme : Units)
  | str (s : Units)
  | arr (vs : List Value)
  | obj (ms : List (Units × Value))

/-- `v[key]`: the last member of that name. -/
def Value.get (v : Value) (key : Units) : Option Value :=
  match v with
  | .obj ms => ms.reverse.lookup key
  | _ => none

/-! ## Lexemes -/

abbrev quote : Nat := 34

abbrev backslash : Nat := 92

def isBlank (c : Nat) : Bool := c = 32 || c = 9 || c = 10 || c = 13

def skipBlanks (s : Units) : Units := s.dropWhile isBlank

def isDigit (c : Nat) : Bool := 48 ≤ c && c ≤ 57

def hexValue (c : Nat) : Option Nat :=
  if isDigit c then some (c - 48)
  else if 97 ≤ c && c ≤ 102 then some (c - 87)
  else if 65 ≤ c && c ≤ 70 then some (c - 55)
  else none

/-- The unit of `\uabcd`. -/
def hexUnit (a b c d : Nat) : Option Nat := do
  return 4096 * (← hexValue a) + 256 * (← hexValue b) + 16 * (← hexValue c) + (← hexValue d)

/-- The escapes of one character. -/
def escapes : List (Nat × Nat) :=
  [(34, 34), (92, 92), (47, 47), (98, 8), (102, 12), (110, 10), (114, 13), (116, 9)]

/-- A string after its opening quote, and what follows its closing quote. -/
def scanString : Units → Option (Units × Units)
  | [] => none
  | c :: s =>
    if c = quote then some ([], s)
    else if c = backslash then
      match s with
      | 117 :: a :: b :: c :: d :: s => do
        let u ← hexUnit a b c d
        let (w, r) ← scanString s
        return (u :: w, r)
      | e :: s => do
        let u ← escapes.lookup e
        let (w, r) ← scanString s
        return (u :: w, r)
      | [] => none
    else if c < 32 then none
    else do
      let (w, r) ← scanString s
      return (c :: w, r)

/-- The longest run of digits. -/
def digits (s : Units) : Units × Units := s.span isDigit

/-- `s` without `pre` at its start. -/
def dropPrefix (pre s : Units) : Option Units := if pre <+: s then some (s.drop pre.length) else none

/-- A fraction, when digits follow the point. -/
def fraction (s : Units) : Units × Units :=
  match s with
  | 46 :: r => if (digits r).1 = [] then ([], s) else (46 :: (digits r).1, (digits r).2)
  | _ => ([], s)

/-- An exponent, when digits follow its sign. -/
def exponent (s : Units) : Units × Units :=
  match s with
  | e :: r =>
    let (sign, r) := match r with
      | 43 :: r => ([43], r)
      | 45 :: r => ([45], r)
      | r => ([], r)
    if (e = 101 || e = 69) && (digits r).1 ≠ [] then (e :: (sign ++ (digits r).1), (digits r).2) else ([], s)
  | [] => ([], s)

/-- A number: its sign, an integer without leading zeros, fraction and exponent. -/
def number (s : Units) : Option (Units × Units) :=
  let (sign, s) := match s with
    | 45 :: s => ([45], s)
    | s => ([], s)
  let whole := match s with
    | 48 :: s => some ([48], s)
    | s => if (digits s).1 = [] then none else some (digits s)
  whole.map fun (ds, s) =>
    let (f, s) := fraction s
    let (e, s) := exponent s
    (sign ++ ds ++ f ++ e, s)

/-- The words that are values. -/
def literals : List (Units × Value) :=
  [(units "null", .null), (units "true", .bool true), (units "false", .bool false), (units "NaN", .num (units "NaN")),
    (units "Infinity", .num (units "Infinity")), (units "-Infinity", .num (units "-Infinity"))]

/-- A value that is neither a string nor a container. -/
def atom (s : Units) : Option (Value × Units) :=
  match literals.find? (·.1 <+: s) with
  | some (w, v) => some (v, s.drop w.length)
  | none => (number s).map fun (l, r) => (.num l, r)

/-! ## Values -/

mutual

/-- A value at the start of the text, and what follows it. -/
def value : Nat → Units → Option (Value × Units)
  | 0, _ => none
  | n + 1, s =>
    match s with
    | [] => none
    | c :: r =>
      if c = quote then do
        let (w, r) ← scanString r
        return (.str w, r)
      else if c = 123 then
        match skipBlanks r with
        | 125 :: r => some (.obj [], r)
        | r => do
          let (ms, r) ← members n r
          return (.obj ms, r)
      else if c = 91 then
        match skipBlanks r with
        | 93 :: r => some (.arr [], r)
        | r => do
          let (vs, r) ← elements n r
          return (.arr vs, r)
      else atom s

/-- The members of an object up to its closing brace. -/
def members : Nat → Units → Option (List (Units × Value) × Units)
  | 0, _ => none
  | n + 1, s => do
    let s ← dropPrefix [quote] s
    let (k, s) ← scanString s
    let s ← dropPrefix [58] (skipBlanks s)
    let (v, s) ← value n (skipBlanks s)
    match skipBlanks s with
    | 125 :: r => return ([(k, v)], r)
    | 44 :: r =>
      let (ms, r) ← members n (skipBlanks r)
      return ((k, v) :: ms, r)
    | _ => none

/-- The elements of an array up to its closing bracket. -/
def elements : Nat → Units → Option (List Value × Units)
  | 0, _ => none
  | n + 1, s => do
    let (v, s) ← value n s
    match skipBlanks s with
    | 93 :: r => return ([v], r)
    | 44 :: r =>
      let (vs, r) ← elements n (skipBlanks r)
      return (v :: vs, r)
    | _ => none

end

/-- `json.loads`: the text's only value. No two steps of the reader in a row read
nothing, so twice the text's length bounds their number. -/
def loads (s : Units) : Option Value := do
  let (v, r) ← value (2 * s.length + 2) (skipBlanks s)
  if skipBlanks r = [] then return v else none

end ProGuide.Lib.Json
