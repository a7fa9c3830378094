import Mathlib.Data.List.Infix
/-!
# Texts as lists

Cutting a text at a separator, splitting and joining it, replacing, lines and
fields, for lists over any alphabet. Each follows the operation of the same
purpose in Python, awk and the shells: leftmost occurrence first, occurrences
never overlapping.
-/

namespace ProGuide.Lib.Text

variable {α : Type} [DecidableEq α]

/-! ## Cutting at the first separator -/

/-- What stands before the first `sep` in the text, and what follows it. -/
def cut (sep : List α) : List α → Option (List α × List α)
  | [] => if sep = [] then some ([], []) else none
  | c :: s =>
    if sep <+: c :: s then some ([], (c :: s).drop sep.length)
    else (cut sep s).map fun p => (c :: p.1, p.2)

/-- `sep` occurs in the text. -/
def contains (sep s : List α) : Bool := (cut sep s).isSome

theorem cut_eq_append {sep s a b : List α} (h : cut sep s = some (a, b)) : s = a ++ (sep ++ b) := by
  induction s generalizing a b with
  | nil =>
    rw [cut] at h
    split at h
    · simp_all
    · cases h
  | cons c s ih =>
    rw [cut] at h
    split at h
    · next hp =>
      obtain ⟨t, ht⟩ := hp
      simp only [Option.some.injEq, Prod.mk.injEq] at h
      obtain ⟨rfl, rfl⟩ := h
      simp [← ht]
    · simp only [Option.map_eq_some_iff, Prod.mk.injEq, Prod.exists] at h
      obtain ⟨a', b', hc, rfl, rfl⟩ := h
      rw [ih hc]; rfl

theorem cut_eq_none {sep s : List α} : cut sep s = none ↔ ¬ sep <:+: s := by
  induction s with
  | nil =>
    rw [cut]
    split <;> simp_all
  | cons c s ih =>
    rw [cut]
    split
    · next hp => simp [hp.isInfix]
    · next hp => simp [ih, List.infix_cons_iff, hp]

theorem contains_iff {sep s : List α} : contains sep s = true ↔ sep <:+: s := by
  rw [contains, Option.isSome_iff_ne_none, ne_eq, cut_eq_none, not_not]

/-- The part before the first separator holds no separator. -/
theorem cut_fst_free {sep s a b : List α} (hs : sep ≠ []) (h : cut sep s = some (a, b)) : ¬ sep <:+: a := by
  induction s generalizing a b with
  | nil => simp [cut, hs] at h
  | cons c s ih =>
    have hab := cut_eq_append h
    rw [cut] at h
    split at h
    · simp only [Option.some.injEq, Prod.mk.injEq] at h
      obtain ⟨rfl, -⟩ := h
      simpa using hs
    · next hp =>
      simp only [Option.map_eq_some_iff, Prod.mk.injEq, Prod.exists] at h
      obtain ⟨a', b', hc, rfl, rfl⟩ := h
      rw [List.infix_cons_iff, not_or]
      refine ⟨fun hpre => hp ?_, ih hc⟩
      rw [hab]
      exact hpre.trans (List.prefix_append _ _)

/-- No proper part of `sep` both begins and ends it, so two occurrences of
`sep` never overlap. -/
def Unbordered (sep : List α) : Prop := ∀ t, t ≠ [] → t <+: sep → t <:+ sep → t = sep

omit [DecidableEq α] in
theorem unbordered_cons {c : α} {s : List α} (h : c ∉ s) : Unbordered (c :: s) := by
  intro t ht hp hsuf
  obtain ⟨d, t', rfl⟩ := List.exists_cons_of_ne_nil ht
  obtain ⟨rfl, -⟩ := List.cons_prefix_cons.1 hp
  rcases List.suffix_cons_iff.1 hsuf with h' | h'
  · exact h'
  · exact absurd (h'.subset List.mem_cons_self) h

theorem cut_append {sep f : List α} (hs : sep ≠ []) (hu : Unbordered sep) (hf : ¬ sep <:+: f) (rest : List α) :
    cut sep (f ++ (sep ++ rest)) = some (f, rest) := by
  induction f with
  | nil =>
    obtain ⟨c, t, rfl⟩ := List.exists_cons_of_ne_nil hs
    simp [cut]
  | cons c f ih =>
    rw [List.infix_cons_iff, not_or] at hf
    have hp : ¬ sep <+: c :: (f ++ (sep ++ rest)) := by
      intro hp
      have hcf : c :: f <+: c :: (f ++ (sep ++ rest)) := by simp
      rcases List.prefix_or_prefix_of_prefix hp hcf with h | ⟨t, rfl⟩
      · exact hf.1 h
      · have ht : t <+: (c :: f ++ t) ++ rest := (List.prefix_append_right_inj (c :: f)).1 hp
        have htp : t <+: c :: f ++ t := List.prefix_of_prefix_length_le ht (List.prefix_append _ _)
          (by simp only [List.length_append]; omega)
        by_cases h0 : t = []
        · subst h0; exact hf.1 (by simp)
        · have := congrArg List.length (hu t h0 htp (List.suffix_append _ _))
          simp only [List.length_append, List.length_cons] at this
          omega
    rw [List.cons_append, cut, if_neg hp, ih hf.2]
    rfl

/-! ## Where a text can start -/

/-- `z` starts nowhere in a text that `t` follows, not even to end inside `t`. -/
def NoStart (z : List α) : List α → List α → Prop
  | [], _ => True
  | c :: s, t => ¬ z <+: c :: (s ++ t) ∧ NoStart z s t

omit [DecidableEq α] in
@[simp] theorem noStart_nil (z t : List α) : NoStart z [] t := trivial

omit [DecidableEq α] in
@[simp] theorem noStart_append (z s s' t : List α) : NoStart z (s ++ s') t ↔ NoStart z s (s' ++ t) ∧ NoStart z s' t := by
  induction s with
  | nil => simp
  | cons c s ih => simp [NoStart, ih, and_assoc]

omit [DecidableEq α] in
/-- A text without the first character of `z` cannot start it. -/
theorem noStart_of_not_mem {c : α} {z s : List α} (h : c ∉ s) (t : List α) : NoStart (c :: z) s t := by
  induction s with
  | nil => trivial
  | cons d s ih =>
    simp only [List.mem_cons, not_or] at h
    exact ⟨fun hp => h.1 (List.cons_prefix_cons.1 hp).1, ih h.2⟩

omit [DecidableEq α] in
/-- A text that needs a character the other lacks does not start in it. -/
theorem noStart_of_missing {c : α} {z s : List α} (hc : c ∈ z) (hs : c ∉ s) : NoStart z s [] := by
  induction s with
  | nil => trivial
  | cons d s ih =>
    refine ⟨fun hp => hs ?_, ih fun h => hs (List.mem_cons_of_mem d h)⟩
    have := hp.subset hc
    rwa [List.append_nil] at this

omit [DecidableEq α] in
theorem noStart_flatMap {β : Type} {z : List α} {f : β → List α} {l : List β} (h : ∀ x ∈ l, ∀ t, NoStart z (f x) t)
    (t : List α) : NoStart z (l.flatMap f) t := by
  induction l with
  | nil => trivial
  | cons x l ih =>
    rw [List.flatMap_cons, noStart_append]
    exact ⟨h x List.mem_cons_self _, ih fun y hy => h y (List.mem_cons_of_mem _ hy)⟩

omit [DecidableEq α] in
theorem NoStart.suffix {z x y t : List α} (h : NoStart z (x ++ y) t) : NoStart z y t :=
  ((noStart_append z x y t).1 h).2

omit [DecidableEq α] in
theorem NoStart.not_prefix {z x y t : List α} (h : NoStart z (x ++ y) t) (hy : y ≠ []) : ¬ z <+: y ++ t := by
  obtain ⟨c, y, rfl⟩ := List.exists_cons_of_ne_nil hy
  exact h.suffix.1

omit [DecidableEq α] in
/-- Where `z` starts nowhere, no longer text does. -/
theorem NoStart.mono {z z' s t : List α} (h : NoStart z s t) (hz : z <+: z') : NoStart z' s t := by
  induction s with
  | nil => trivial
  | cons c s ih => exact ⟨fun hp => h.1 (hz.trans hp), ih h.2⟩

omit [DecidableEq α] in
/-- Two texts cut at the same character agree when what follows does. -/
theorem eq_of_prefix_delim {c : α} {w v x y : List α} (hw : c ∉ w) (hv : c ∉ v) (h : w ++ c :: x <+: v ++ c :: y) :
    w = v := by
  induction w generalizing v with
  | nil =>
    cases v with
    | nil => rfl
    | cons d v => exact absurd (List.cons_prefix_cons.1 h).1 (by simp_all)
  | cons e w ih =>
    simp only [List.mem_cons, not_or] at hw
    cases v with
    | nil => exact absurd (List.cons_prefix_cons.1 h).1.symm hw.1
    | cons d v =>
      simp only [List.mem_cons, not_or] at hv
      obtain ⟨rfl, hwv⟩ := List.cons_prefix_cons.1 h
      rw [ih hw.2 hv.2 hwv]

omit [DecidableEq α] in
/-- Where `z` starts nowhere it does not occur. -/
theorem NoStart.not_infix {z s : List α} (hz : z ≠ []) (h : NoStart z s []) : ¬ z <:+: s := by
  induction s with
  | nil => simpa using hz
  | cons c s ih =>
    rw [List.infix_cons_iff, not_or]
    exact ⟨by simpa using h.1, ih h.2⟩

/-! ## Splitting and joining -/

/-- At most `n` cuts. -/
def splitN (sep : List α) : Nat → List α → List (List α)
  | 0, s => [s]
  | n + 1, s =>
    match cut sep s with
    | none => [s]
    | some (a, b) => a :: splitN sep n b

/-- `s.split(sep)` for a non-empty `sep`. -/
def split (sep s : List α) : List (List α) := splitN sep s.length s

theorem splitN_join {sep : List α} (hs : sep ≠ []) (hu : Unbordered sep) (ps : List (List α)) (hne : ps ≠ [])
    (hf : ∀ p ∈ ps, ¬ sep <:+: p) (n : Nat) (hn : ps.length ≤ n + 1) : splitN sep n (sep.intercalate ps) = ps := by
  induction ps generalizing n with
  | nil => exact absurd rfl hne
  | cons p ps ih =>
    have hp := hf p List.mem_cons_self
    rcases ps with _ | ⟨q, ps⟩
    · rw [List.intercalate_singleton]
      rcases n with _ | n
      · rfl
      · rw [splitN, cut_eq_none.2 hp]
    · rcases n with _ | n
      · simp at hn
      · rw [List.intercalate_cons_cons, List.append_assoc, splitN, cut_append hs hu hp]
        simp only
        rw [ih (by simp) (fun x hx => hf x (List.mem_cons_of_mem _ hx)) n (by simpa using hn)]

omit [DecidableEq α] in
theorem length_le_intercalate {sep : List α} (hs : sep ≠ []) (ps : List (List α)) :
    ps.length ≤ (sep.intercalate ps).length + 1 := by
  induction ps with
  | nil => simp
  | cons p ps ih =>
    rcases ps with _ | ⟨q, ps⟩
    · simp
    · have := List.length_pos_iff.2 hs
      rw [List.intercalate_cons_cons]
      simp only [List.length_append, List.length_cons] at ih ⊢
      omega

/-- Splitting undoes joining when no piece holds the separator. -/
theorem split_join {sep : List α} (hs : sep ≠ []) (hu : Unbordered sep) (ps : List (List α)) (hne : ps ≠ [])
    (hf : ∀ p ∈ ps, ¬ sep <:+: p) : split sep (sep.intercalate ps) = ps :=
  splitN_join hs hu ps hne hf _ (length_le_intercalate hs ps)

theorem splitN_free {sep : List α} (hs : sep ≠ []) (n : Nat) (s : List α) (hn : s.length ≤ n) :
    ∀ p ∈ splitN sep n s, ¬ sep <:+: p := by
  induction n generalizing s with
  | zero =>
    have : s = [] := List.eq_nil_of_length_eq_zero (Nat.le_zero.1 hn)
    simp [splitN, this, hs]
  | succ n ih =>
    rw [splitN]
    rcases hc : cut sep s with _ | ⟨a, b⟩
    · simpa using cut_eq_none.1 hc
    · have hlen := congrArg List.length (cut_eq_append hc)
      have := List.length_pos_iff.2 hs
      simp only [List.length_append] at hlen
      simp only [List.mem_cons, forall_eq_or_imp]
      exact ⟨cut_fst_free hs hc, ih b (by omega)⟩

/-- No piece of a split holds the separator. -/
theorem split_free {sep s : List α} (hs : sep ≠ []) : ∀ p ∈ split sep s, ¬ sep <:+: p :=
  splitN_free hs _ s (le_refl _)

/-- A text without the separator is its own only piece. -/
theorem split_of_free {sep s : List α} (h : ¬ sep <:+: s) : split sep s = [s] := by
  unfold split
  rcases s with _ | ⟨c, s⟩
  · rfl
  · rw [List.length_cons, splitN, cut_eq_none.2 h]

theorem intercalate_splitN (sep : List α) (n : Nat) (s : List α) : sep.intercalate (splitN sep n s) = s := by
  induction n generalizing s with
  | zero => rw [splitN, List.intercalate_singleton]
  | succ n ih =>
    rw [splitN]
    rcases hc : cut sep s with _ | ⟨a, b⟩
    · exact List.intercalate_singleton ..
    · obtain ⟨q, qs, hq⟩ : ∃ q qs, splitN sep n b = q :: qs := by
        rcases n with _ | n
        · exact ⟨b, [], rfl⟩
        · rw [splitN]
          split <;> exact ⟨_, _, rfl⟩
      have hb := ih b
      simp only [hq] at hb ⊢
      rw [List.intercalate_cons_cons, hb, cut_eq_append hc, List.append_assoc]

/-- Joining undoes splitting. -/
theorem intercalate_split (sep s : List α) : sep.intercalate (split sep s) = s := intercalate_splitN sep _ s

omit [DecidableEq α] in
theorem mem_intercalate {sep p : List α} {ps : List (List α)} {c : α} (hp : p ∈ ps) (hc : c ∈ p) :
    c ∈ sep.intercalate ps := by
  induction ps with
  | nil => cases hp
  | cons q qs ih =>
    rcases qs with _ | ⟨r, rs⟩
    · rw [List.intercalate_singleton]
      rwa [← List.mem_singleton.1 hp]
    · rw [List.intercalate_cons_cons]
      rcases List.mem_cons.1 hp with rfl | hp
      · exact List.mem_append_left _ (List.mem_append_left _ hc)
      · exact List.mem_append_right _ (ih hp)

/-- `s.replace(old, new)` for a non-empty `old`. -/
def replaceAll (old new s : List α) : List α := new.intercalate (split old s)

/-! ## Lines and fields -/

/-- The lines of a text, each with its newline. -/
def readlines (nl : α) : List α → List (List α)
  | [] => []
  | c :: s =>
    if c = nl then [c] :: readlines nl s
    else match readlines nl s with
      | [] => [[c]]
      | l :: ls => (c :: l) :: ls

theorem readlines_ne_nil (nl : α) {s : List α} (h : s ≠ []) : readlines nl s ≠ [] := by
  cases s with
  | nil => exact absurd rfl h
  | cons c s =>
    rw [readlines]
    split
    · simp
    · split <;> simp

/-- A newline ends a line whatever follows. -/
theorem readlines_append (nl : α) (a b : List α) :
    readlines nl (a ++ nl :: b) = readlines nl (a ++ [nl]) ++ readlines nl b := by
  induction a with
  | nil => simp [readlines]
  | cons c a ih =>
    simp only [List.cons_append, readlines]
    split
    · rw [ih, List.cons_append]
    · rw [ih]
      cases h : readlines nl (a ++ [nl]) with
      | nil => exact absurd h (readlines_ne_nil nl (by simp))
      | cons l ls => rfl

theorem readlines_line {nl : α} {a : List α} (h : nl ∉ a) : readlines nl (a ++ [nl]) = [a ++ [nl]] := by
  induction a with
  | nil => simp [readlines]
  | cons c a ih =>
    simp only [List.mem_cons, not_or] at h
    simp [readlines, ih h.2, Ne.symm h.1]

/-- The lines of texts that end in newlines, one after the other. -/
theorem readlines_flatMap {β : Type} {nl : α} {f : β → List α} (hf : ∀ x, ∃ t, f x = t ++ [nl]) (l : List β) :
    readlines nl (l.flatMap f) = l.flatMap fun x => readlines nl (f x) := by
  induction l with
  | nil => rfl
  | cons x l ih =>
    obtain ⟨t, ht⟩ := hf x
    rw [List.flatMap_cons, List.flatMap_cons, ← ih, ht, List.append_assoc]
    exact readlines_append nl t _

/-- The lines make up the text. -/
theorem readlines_flatten (nl : α) (s : List α) : (readlines nl s).flatten = s := by
  induction s with
  | nil => rfl
  | cons c s ih =>
    rw [readlines]
    split
    · rw [List.flatten_cons, ih]
      rfl
    · cases h : readlines nl s with
      | nil =>
        rw [h] at ih
        rw [← ih]
        rfl
      | cons l ls =>
        rw [h] at ih
        rw [← ih]
        rfl

/-! ## Taking from joined pieces -/

omit [DecidableEq α] in
/-- Of pieces none of which is empty, the first `k` members are in the first `k`. -/
theorem take_flatMap_isPrefix {β : Type} {g : β → List α} (hg : ∀ x, g x ≠ []) (l : List β) (k : Nat) :
    (l.flatMap g).take k <+: (l.take k).flatMap g := by
  induction l generalizing k with
  | nil => simp
  | cons x l ih =>
    cases k with
    | zero => simp
    | succ k =>
      have hpos := List.length_pos_iff.2 (hg x)
      rw [List.flatMap_cons, List.take_succ_cons, List.flatMap_cons, List.take_append]
      by_cases hk : k + 1 ≤ (g x).length
      · rw [Nat.sub_eq_zero_of_le hk, List.take_zero, List.append_nil]
        exact (List.take_prefix _ _).trans (List.prefix_append _ _)
      · rw [List.take_of_length_le (by omega), List.prefix_append_right_inj]
        have hle : k + 1 - (g x).length ≤ k := by omega
        exact (List.take_prefix_take_left hle).trans (ih k)

omit [DecidableEq α] in
/-- Where the first `k` pieces are single members, they are the first `k` members. -/
theorem take_flatMap_single {β : Type} {g : β → List α} {f : β → α} {l : List β} {k : Nat}
    (hg : ∀ x ∈ l.take k, g x = [f x]) : (l.flatMap g).take k = (l.take k).map f := by
  induction l generalizing k with
  | nil => simp
  | cons x l ih =>
    cases k with
    | zero => simp
    | succ k =>
      rw [List.take_succ_cons, List.forall_mem_cons] at hg
      rw [List.flatMap_cons, hg.1, List.singleton_append, List.take_succ_cons, List.take_succ_cons, List.map_cons,
        ih hg.2]

omit [DecidableEq α] in
theorem forall_mem_of_all {P : α → Prop} [DecidablePred P] {l : List α} (h : (l.all fun a => P a) = true) :
    ∀ a ∈ l, P a := by simpa using h

/-- The non-empty runs between blanks. -/
def fields (blank : α → Bool) (s : List α) : List (List α) := (s.splitOnP blank).filter (· ≠ [])

omit [DecidableEq α] in
theorem splitOnP_free (blank : α → Bool) (s : List α) : ∀ w ∈ s.splitOnP blank, ∀ c ∈ w, blank c = false := by
  induction s with
  | nil => simp
  | cons d s ih =>
    rw [List.splitOnP_cons_eq_if_modifyHead]
    split
    · exact List.forall_mem_cons.2 ⟨fun c hc => absurd hc List.not_mem_nil, ih⟩
    · next hd =>
      obtain ⟨v, vs, hvs⟩ := List.exists_cons_of_ne_nil (List.splitOnP_ne_nil blank s)
      rw [hvs, List.forall_mem_cons] at ih
      rw [hvs, List.modifyHead_cons, List.forall_mem_cons]
      exact ⟨List.forall_mem_cons.2 ⟨by simpa using hd, ih.1⟩, ih.2⟩

omit [DecidableEq α] in
theorem fields_free {blank : α → Bool} {s w : List α} (h : w ∈ fields blank s) : ∀ c ∈ w, blank c = false :=
  splitOnP_free blank s w (List.mem_filter.1 h).1

omit [DecidableEq α] in
theorem fields_cons {blank : α → Bool} {w : List α} (hw : ∀ c ∈ w, blank c = false) (hne : w ≠ []) {c : α}
    (hc : blank c = true) (s : List α) : fields blank (w ++ c :: s) = w :: fields blank s := by
  rw [fields, List.splitOnP_append_cons_of_forall_mem hw c hc, List.filter_cons_of_pos (by simpa using hne)]
  rfl

omit [DecidableEq α] in
/-- A text is its own only field exactly when it holds no blank and is not empty. -/
theorem fields_eq_self_iff {blank : α → Bool} {s : List α} :
    fields blank s = [s] ↔ (∀ c ∈ s, blank c = false) ∧ s ≠ [] := by
  constructor
  · intro h
    have hmem : s ∈ fields blank s := by
      rw [h]
      exact List.mem_singleton.2 rfl
    exact ⟨fields_free hmem, by simpa using (List.mem_filter.1 hmem).2⟩
  · rintro ⟨hs, hne⟩
    rw [fields, List.splitOnP_eq_singleton hs, List.filter_cons_of_pos (by simpa using hne)]
    rfl

end ProGuide.Lib.Text
