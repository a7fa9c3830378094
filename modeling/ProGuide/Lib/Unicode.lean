import Mathlib.Data.List.DropRight
/-!
# Unicode texts

White space and letter case as Python 2 has them for its `unicode` strings.
-/

namespace ProGuide.Lib.Unicode

/-- What `unicode.strip` takes off. -/
def isSpace (c : Char) : Bool :=
  let n := c.toNat
  (0x09 ≤ n && n ≤ 0x0d) || (0x1c ≤ n && n ≤ 0x20) || n = 0x85 || n = 0xa0 || n = 0x1680 || n = 0x180e ||
    (0x2000 ≤ n && n ≤ 0x200a) || n = 0x2028 || n = 0x2029 || n = 0x202f || n = 0x205f || n = 0x3000

def strip (s : List Char) : List Char := (s.dropWhile isSpace).rdropWhile isSpace

def isAscii (s : List Char) : Bool := s.all fun c => c.toNat < 128

/-- The tables of the character database that lower case and a reduction to ASCII need. -/
structure Tables where
  lower : Char → Char
  fold : List Char → List Char
  lower_ascii : ∀ c, c.toNat < 128 → lower c = c.toLower
  fold_ascii : ∀ s, isAscii (fold s) = true

variable (u : Tables)

/-- `unicode.lower`, one character for one. -/
def Tables.lowered (s : List Char) : List Char := s.map u.lower

variable {u}

theorem toLower_ascii {c : Char} (h : c.toNat < 128) : c.toLower.toLower = c.toLower ∧ c.toLower.toNat < 128 := by
  have hall : ∀ n : Fin 128, (Char.ofNat n).toLower.toLower = (Char.ofNat n).toLower ∧
      (Char.ofNat n).toLower.toNat < 128 := by decide
  have hc := hall ⟨c.toNat, h⟩
  rwa [Char.ofNat_toNat] at hc

theorem Tables.lowered_ascii {s : List Char} (h : isAscii s = true) : u.lowered s = s.map Char.toLower :=
  List.map_congr_left fun c hc => u.lower_ascii c (by simpa using List.all_eq_true.1 h c hc)

/-- Lower case of ASCII is ASCII, and its own lower case. -/
theorem Tables.mem_lowered {s : List Char} (h : isAscii s = true) {c : Char} (hc : c ∈ u.lowered s) :
    c.toNat < 128 ∧ c.toLower = c := by
  rw [lowered_ascii h] at hc
  obtain ⟨d, hd, rfl⟩ := List.mem_map.1 hc
  have hlower := toLower_ascii (by simpa using List.all_eq_true.1 h d hd)
  exact ⟨hlower.2, hlower.1⟩

theorem Tables.isAscii_lowered {s : List Char} (h : isAscii s = true) : isAscii (u.lowered s) = true :=
  List.all_eq_true.2 fun _ hc => decide_eq_true (mem_lowered h hc).1

end ProGuide.Lib.Unicode
