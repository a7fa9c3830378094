import Mathlib.Data.List.Basic
/-!
# Base64

Bytes as groups of six bits, and back. The symbols of the groups are a parameter: an
alphabet gives each its value, and has one more for padding.
-/

namespace ProGuide.Lib.Base64

abbrev Byte := Fin 256

abbrev Sextet := Fin 64

/-! ## Regrouping bits -/

/-- The bits of some bytes, six at a time; the last group is filled with zeros. -/
def sextets : List Byte → List Sextet
  | [] => []
  | [a] => [⟨a / 4, by omega⟩, ⟨a % 4 * 16, by omega⟩]
  | [a, b] => [⟨a / 4, by omega⟩, ⟨a % 4 * 16 + b / 16, by omega⟩, ⟨b % 16 * 4, by omega⟩]
  | a :: b :: c :: s =>
    ⟨a / 4, by omega⟩ :: ⟨a % 4 * 16 + b / 16, by omega⟩ :: ⟨b % 16 * 4 + c / 64, by omega⟩ :: ⟨c % 64, by omega⟩ ::
      sextets s

/-- The whole bytes in some groups. -/
def bytes : List Sextet → List Byte
  | [] => []
  | [_] => []
  | [a, b] => [⟨a * 4 + b / 16, by omega⟩]
  | [a, b, c] => [⟨a * 4 + b / 16, by omega⟩, ⟨b % 16 * 16 + c / 4, by omega⟩]
  | a :: b :: c :: d :: s =>
    ⟨a * 4 + b / 16, by omega⟩ :: ⟨b % 16 * 16 + c / 4, by omega⟩ :: ⟨c % 4 * 64 + d, by omega⟩ :: bytes s

theorem bytes_sextets (s : List Byte) : bytes (sextets s) = s := by
  induction s using sextets.induct with
  | case1 => rfl
  | case2 a =>
    simp only [sextets, bytes, List.cons.injEq, and_true, Fin.ext_iff]
    omega
  | case3 a b =>
    simp only [sextets, bytes, List.cons.injEq, and_true, Fin.ext_iff]
    omega
  | case4 a b c s ih =>
    simp only [sextets, bytes, List.cons.injEq, Fin.ext_iff, ih, and_true]
    omega

/-- The symbols that fill the last group of four. -/
def padding (n : Nat) : Nat := (3 - n % 3) % 3

theorem length_sextets (s : List Byte) : (sextets s).length + padding s.length = (s.length + 2) / 3 * 4 := by
  induction s using sextets.induct with
  | case1 => rfl
  | case2 a => simp [sextets, padding]
  | case3 a b => simp [sextets, padding]
  | case4 a b c s ih =>
    simp only [sextets, List.length_cons, padding] at ih ⊢
    omega

/-! ## Alphabets -/

structure Alphabet (α : Type) where
  symbol : Sextet → α
  value : α → Option Sextet
  pad : α
  value_symbol : ∀ v, value (symbol v) = some v
  value_pad : value pad = none

variable {α : Type} (A : Alphabet α)

def encode (s : List Byte) : List α := (sextets s).map A.symbol ++ List.replicate (padding s.length) A.pad

/-- Symbols that have no value are passed over. -/
def decode (t : List α) : List Byte := bytes (t.filterMap A.value)

variable {A}

theorem filterMap_symbol (vs : List Sextet) : (vs.map A.symbol).filterMap A.value = vs := by
  rw [List.filterMap_map]
  exact (List.filterMap_congr fun v _ => A.value_symbol v).trans List.filterMap_some

/-- What is decoded depends on the values alone. -/
theorem decode_of_values {t : List α} {s : List Byte} (h : t.filterMap A.value = sextets s) : decode A t = s := by
  rw [decode, h, bytes_sextets]

/-! ## Strict decoding -/

section Strict
variable [DecidableEq α] (A) (blank : α → Bool)

/-- The values, and how much padding follows them; none for a symbol that is neither, or
one after padding. -/
def scan : Nat → List α → Option (List Sextet × Nat)
  | pads, [] => some ([], pads)
  | pads, c :: t =>
    if c = A.pad then scan (pads + 1) t
    else if blank c then scan pads t
    else match A.value c with
      | none => none
      | some v => if pads = 0 then (scan pads t).map fun r => (v :: r.1, r.2) else none

def strictDecode (t : List α) : Option (List Byte) :=
  match scan A blank 0 t with
  | none => none
  | some (vs, pads) =>
    if vs.length % 4 = 1 ∨ (0 < pads ∧ (2 < pads ∨ (vs.length + pads) % 4 ≠ 0)) then none else some (bytes vs)

variable {A} {blank}

theorem scan_pads (pads n : Nat) : scan A blank pads (List.replicate n A.pad) = some ([], pads + n) := by
  induction n generalizing pads with
  | zero => rfl
  | succ n ih =>
    rw [List.replicate_succ, scan, if_pos rfl, ih]
    congr 2
    omega

omit [DecidableEq α] in
theorem symbol_ne_pad (v : Sextet) : A.symbol v ≠ A.pad := by
  intro h
  have hv := A.value_symbol v
  rw [h, A.value_pad] at hv
  cases hv

theorem scan_symbols (hblank : ∀ v, blank (A.symbol v) = false) (vs : List Sextet) (t : List α) :
    scan A blank 0 (vs.map A.symbol ++ t) = (scan A blank 0 t).map fun r => (vs ++ r.1, r.2) := by
  induction vs with
  | nil => simp
  | cons v vs ih =>
    rw [List.map_cons, List.cons_append, scan, if_neg (symbol_ne_pad v), if_neg (by rw [hblank]; decide), A.value_symbol]
    simp only [if_true, ih, Option.map_map]
    rfl

/-- Without padding, or with the padding there should be, the bytes come back. -/
theorem strictDecode_encode (hblank : ∀ v, blank (A.symbol v) = false) (s : List Byte) :
    strictDecode A blank (encode A s) = some s ∧ strictDecode A blank ((sextets s).map A.symbol) = some s := by
  have hlen := length_sextets s
  have hsmall : padding s.length ≤ 2 := by
    unfold padding
    omega
  have hscan : scan A blank 0 (encode A s) = some (sextets s, padding s.length) := by
    rw [encode, scan_symbols hblank, scan_pads]
    simp
  have hbare : scan A blank 0 ((sextets s).map A.symbol) = some (sextets s, 0) := by
    have h := scan_symbols hblank (sextets s) []
    rw [List.append_nil] at h
    rw [h]
    simp [scan]
  have hgroup : (sextets s).length % 4 ≠ 1 := by omega
  constructor
  · simp only [strictDecode, hscan]
    rw [if_neg (by omega), bytes_sextets]
  · simp only [strictDecode, hbare]
    rw [if_neg (by omega), bytes_sextets]

/-- A symbol that is neither a value, padding nor blank spoils the text. -/
theorem strictDecode_foreign {t : List α} {c : α} (hc : c ∈ t) (hpad : c ≠ A.pad) (hblank : blank c = false)
    (hvalue : A.value c = none) : strictDecode A blank t = none := by
  have hscan (pads : Nat) : scan A blank pads t = none := by
    induction t generalizing pads with
    | nil => cases hc
    | cons d t ih =>
      rcases List.mem_cons.1 hc with rfl | hc
      · rw [scan, if_neg hpad, if_neg (by rw [hblank]; decide), hvalue]
      · rw [scan]
        simp only [ih hc]
        split
        · rfl
        · split
          · rfl
          · split
            · rfl
            · split <;> rfl
  rw [strictDecode, hscan]

end Strict

end ProGuide.Lib.Base64
