import Mathlib.Data.List.Forall2
import ProGuide.Lib.RegexRules
/-!
# Searching for characters in order

`search`, and the patterns `.*?a.*?b.*?c`, which ask for some characters one after the
other with anything between them. In a text of one line such a pattern is found exactly
when its characters stand there in their order.
-/

namespace ProGuide.Lib.Regex

/-! ## Searching -/

/-- The first match from a place on: where it starts, and where it ends. -/
def searchFrom (m : St → List St) (before : List Char) : List Char → Option (Nat × Nat)
  | [] =>
    match m ⟨before, [], []⟩ with
    | t :: _ => some (before.length, t.before.length)
    | [] => none
  | c :: a =>
    match m ⟨before, c :: a, []⟩ with
    | t :: _ => some (before.length, t.before.length)
    | [] => searchFrom m (c :: before) a

def search (fl : Flags) (r : Re) (text : List Char) : Option (Nat × Nat) := searchFrom (run fl r) [] text

theorem searchFrom_isSome {m : St → List St} {b a : List Char} :
    (searchFrom m b a).isSome = true ↔ ∃ x y, a = x ++ y ∧ m ⟨x.reverse ++ b, y, []⟩ ≠ [] := by
  induction a generalizing b with
  | nil =>
    rw [searchFrom]
    cases hm : m ⟨b, [], []⟩ with
    | cons t ts => simp [hm]
    | nil => simp [hm]
  | cons c a ih =>
    rw [searchFrom]
    cases hm : m ⟨b, c :: a, []⟩ with
    | cons t ts => exact iff_of_true rfl ⟨[], c :: a, rfl, by simp [hm]⟩
    | nil =>
      rw [ih]
      constructor
      · rintro ⟨x, y, rfl, h⟩
        exact ⟨c :: x, y, rfl, by simpa using h⟩
      · rintro ⟨x, y, heq, h⟩
        rcases x with _ | ⟨d, x⟩
        · rw [List.nil_append] at heq
          subst heq
          exact absurd hm h
        · obtain ⟨rfl, rfl⟩ := List.cons.inj heq
          exact ⟨x, y, rfl, by simpa using h⟩

/-! ## Characters in order -/

/-- `.*?` before each of some characters. -/
def inOrder (q : List Char) : Re := catAll (q.flatMap fun c => [.rep false 0 none .any, .lit c])

variable {fl : Flags}

/-- In one line a walk gets everywhere. -/
theorem walk_all {q : List Char → Bool} {x y : List Char} (h : ∀ u c v, x = u ++ c :: v → q (c :: (v ++ y)) = true)
    (k b) : ⟨x.reverse ++ b, y, k⟩ ∈ walk q k b (x ++ y) := by
  induction x generalizing b with
  | nil => cases y <;> simp [walk]
  | cons c x ih =>
    have hc := h [] c x rfl
    have hx := ih (fun u d v heq => h (c :: u) d v (by rw [heq]; rfl)) (c :: b)
    rw [List.cons_append, walk, hc]
    simpa using Or.inr hx

theorem any_oneChar (fl : Flags) : OneChar (run fl .any) fun a => a.head?.all fun d => fl.dotall || d ≠ '\n' := by
  refine ⟨fun b k => rfl, fun b c a k => ?_⟩
  simp [run, St.eat]

/-- Related characters in order: some text, the first of them, and the rest. -/
theorem sublistForall_cons {R : Char → Char → Prop} {c : Char} {q a : List Char} :
    List.SublistForall₂ R (c :: q) a ↔ ∃ x d y, a = x ++ d :: y ∧ R c d ∧ List.SublistForall₂ R q y := by
  constructor
  · intro h
    induction a with
    | nil => cases h
    | cons e a ih =>
      cases h with
      | cons hr hs => exact ⟨[], e, a, rfl, hr, hs⟩
      | cons_right hs =>
        obtain ⟨x, d, y, rfl, hr, hs⟩ := ih hs
        exact ⟨e :: x, d, y, rfl, hr, hs⟩
  · rintro ⟨x, d, y, rfl, hr, hs⟩
    induction x with
    | nil => exact .cons hr hs
    | cons e x ih => exact .cons_right ih

theorem sublistForall_append {R : Char → Char → Prop} {q a : List Char} (x : List Char)
    (h : List.SublistForall₂ R q a) : List.SublistForall₂ R q (x ++ a) := by
  induction x with
  | nil => exact h
  | cons e x ih => exact .cons_right ih

theorem flatMap_ne_nil {α β : Type} {f : α → List β} {l : List α} : l.flatMap f ≠ [] ↔ ∃ x ∈ l, f x ≠ [] := by
  simp [List.flatMap_eq_nil_iff]

theorem eat_flatMap_ne_nil {p : Char → Bool} {f : St → List St} {b a : List Char} {k : List (Nat × List Char)} :
    (St.eat p ⟨b, a, k⟩).flatMap f ≠ [] ↔ ∃ d y, a = d :: y ∧ p d = true ∧ f ⟨d :: b, y, k⟩ ≠ [] := by
  cases a with
  | nil => simp [St.eat]
  | cons d y =>
    simp only [St.eat]
    split
    · next hp => simp [hp]
    · next hp => simp [hp]

/-- In one line, the pattern matches where its characters follow in their order. -/
theorem run_inOrder {q a : List Char} (ha : '\n' ∉ a) (b : List Char) (k) :
    run fl (inOrder q) ⟨b, a, k⟩ ≠ [] ↔ List.SublistForall₂ (fun c d => same fl c d = true) q a := by
  induction q generalizing a b with
  | nil => exact iff_of_true (by simp [inOrder, catAll]) .nil
  | cons c q ih =>
    have hstep : run fl (inOrder (c :: q)) ⟨b, a, k⟩ = (run fl (.rep false 0 none .any) ⟨b, a, k⟩).flatMap
        fun t => (t.eat (same fl c)).flatMap (run fl (inOrder q)) := rfl
    rw [hstep, run_lazy fl (any_oneChar fl), flatMap_ne_nil, sublistForall_cons]
    constructor
    · rintro ⟨t, ht, hne⟩
      obtain ⟨x, y, rfl, rfl⟩ := mem_walk ht
      obtain ⟨d, y, rfl, hd, hne⟩ := eat_flatMap_ne_nil.1 hne
      exact ⟨x, d, y, rfl, hd, (ih (fun hy => ha (by simp [hy])) _).1 hne⟩
    · rintro ⟨x, d, y, rfl, hd, hs⟩
      have hline : ∀ u e v, x = u ++ e :: v →
          ((e :: (v ++ d :: y)).head?.all fun d => fl.dotall || d ≠ '\n') = true := by
        rintro u e v rfl
        have he : e ≠ '\n' := by
          rintro rfl
          exact ha (by simp)
        simp [he]
      refine ⟨⟨x.reverse ++ b, d :: y, k⟩, walk_all hline k b, ?_⟩
      exact eat_flatMap_ne_nil.2 ⟨d, y, rfl, hd, (ih (fun hy => ha (by simp [hy])) _).2 hs⟩

/-- In a text of one line, the pattern is found exactly when its characters stand there in
their order. -/
theorem search_inOrder {q text : List Char} (h : '\n' ∉ text) :
    (search fl (inOrder q) text).isSome = true ↔
      List.SublistForall₂ (fun c d => same fl c d = true) q text := by
  rw [search, searchFrom_isSome]
  constructor
  · rintro ⟨x, y, rfl, hrun⟩
    exact sublistForall_append x ((run_inOrder (fun hy => h (List.mem_append_right x hy)) _ _).1 hrun)
  · intro hs
    exact ⟨[], text, rfl, (run_inOrder h _ _).2 hs⟩

end ProGuide.Lib.Regex
