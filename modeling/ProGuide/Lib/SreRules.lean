import Mathlib.Data.List.TakeDrop
import ProGuide.Lib.SreParse
/-!
# Rules of the pattern parser

Which texts the parser reads as themselves, and what it makes of the constructs
around them.
-/
open ProGuide.Lib.Regex

namespace ProGuide.Lib.SreParse

/-- The characters that never stand for themselves in a pattern. A brace stands
for itself unless it begins a repeat. -/
def special : List Char := "\\.^$*+?[()|".toList

/-- The parser reads the text as its own characters, when no digit, comma or
brace follows it. -/
def Plain : List Char → Prop
  | [] => True
  | c :: s => c ∉ special ∧ (c = '{' → braces s = none) ∧ Plain s

instance decidablePlain : (s : List Char) → Decidable (Plain s)
  | [] => .isTrue trivial
  | _ :: s => @instDecidableAnd _ _ _ (@instDecidableAnd _ _ _ (decidablePlain s))

variable {st : PState}

theorem parse_end (n : Nat) (acc : List Re) : parse (n + 1) [] st acc = .ok (acc.reverse, [], st) := by
  rw [parse]

theorem parse_lit (hv : st.flags.verbose = false) {c : Char} (hc : c ∉ special) (hb : c ≠ '{') (n : Nat)
    (s : List Char) (acc : List Re) : parse (n + 1) (c :: s) st acc = parse n s st (.lit c :: acc) := by
  have hne : ∀ d ∈ special, c ≠ d := fun d hd h => hc (h ▸ hd)
  rw [parse.eq_def]
  simp only [hv, Bool.false_and, Bool.false_eq_true, if_false, hne '|' (by decide), hne ')' (by decide),
    decide_false, Bool.or_self]
  split <;> first | rfl | exact absurd rfl (hne _ (by decide)) | exact absurd rfl hb

theorem parse_brace (hv : st.flags.verbose = false) {s : List Char} (hs : braces s = none) (n : Nat)
    (acc : List Re) : parse (n + 1) ('{' :: s) st acc = parse n s st (.lit '{' :: acc) := by
  rw [parse.eq_def]
  simp [hv, hs]

theorem span_append {p : Char → Bool} {d : Char} (hd : p d = false) (s t : List Char) :
    (s ++ d :: t).span p = ((s.span p).1, (s.span p).2 ++ d :: t) := by
  simp only [List.span_eq_takeWhile_dropWhile, Prod.mk.injEq]
  induction s with
  | nil => simp [hd]
  | cons c s ih =>
    cases hc : p c
    · simp [hc]
    · simpa [hc] using ih

/-- What follows a text does not make a repeat of a brace in it. -/
theorem braces_append {d : Char} (hd : isDigit d = false) (hc : d ≠ ',') (hr : d ≠ '}') {s : List Char}
    (h : braces s = none) (t : List Char) : braces (s ++ d :: t) = none := by
  have hhead : ((s ++ d :: t).head? = some '}') ↔ s.head? = some '}' := by
    cases s <;> simp [hr]
  unfold braces at h ⊢
  simp only [hhead, span_append hd] at h ⊢
  split at h
  · next h0 => simp [h0]
  · next h0 =>
    simp only [h0, if_false]
    rcases hs : (s.span isDigit).2 with _ | ⟨e, u⟩
    · simp only [List.nil_append]
      split <;> simp_all
    · rw [hs] at h
      by_cases he : e = ','
      · subst he
        simp only [List.cons_append, span_append hd] at h ⊢
        rcases hu : (u.span isDigit).2 with _ | ⟨f, v⟩
        · simp only [List.nil_append]
          split <;> simp_all
        · rw [hu] at h
          simp only [List.cons_append]
          split <;> simp_all
      · simp only [List.cons_append]
        split at h <;> split <;> simp_all

/-- A plain text, and a character after it that cannot continue a repeat, adds
its own characters. -/
theorem parse_plain (hv : st.flags.verbose = false) {d : Char} (hd : isDigit d = false) (hc : d ≠ ',') (hr : d ≠ '}')
    {w : List Char} (hw : Plain w) (n : Nat) (s : List Char) (acc : List Re) :
    parse (w.length + n) (w ++ d :: s) st acc = parse n (d :: s) st ((w.map .lit).reverse ++ acc) := by
  induction w generalizing acc with
  | nil => simp
  | cons c w ih =>
    obtain ⟨hcs, hcb, hw⟩ := hw
    have step : parse (w.length + n + 1) (c :: (w ++ d :: s)) st acc = parse (w.length + n) (w ++ d :: s) st (.lit c :: acc) := by
      by_cases hb : c = '{'
      · subst hb
        exact parse_brace hv (braces_append hd hc hr (hcb rfl) s) _ _
      · exact parse_lit hv hcs hb _ _ _
    rw [List.length_cons, Nat.add_right_comm, List.cons_append, step, ih hw]
    simp

end ProGuide.Lib.SreParse
