import Mathlib.Data.List.TakeDrop
import ProGuide.Lib.SreParse
/-!
# Steps of the pattern parser

Every construct reads at least one character, so the steps `parseAll` gives the
parser are enough for any pattern: none is refused for want of steps.
-/

namespace ProGuide.Lib.SreParse

/-! ## Readers -/

/-- The error of a parser without steps. -/
def outOfSteps : Error := .error "parser error"

/-- The reader has steps enough, and leaves at most `k` characters. -/
def Reads {α : Type} (rest : α → List Char) (k : Nat) : Except Error α → Prop
  | .ok r => (rest r).length ≤ k
  | .error e => e ≠ outOfSteps

section Rules
variable {α β : Type} {rest : α → List Char} {rest' : β → List Char} {j k : Nat} {x : Except Error α}

theorem Reads.fail {msg : String} (h : msg ≠ "parser error") : Reads rest k (.error (.error msg)) :=
  fun he => h (Error.error.inj he)

theorem Reads.overflow (msg : String) : Reads rest k (.error (.overflowError msg)) := fun he => by cases he

theorem Reads.mono (h : Reads rest j x) (hjk : j ≤ k) : Reads rest k x := by
  cases x with
  | ok r => exact Nat.le_trans h hjk
  | error e => exact h

theorem Reads.bind {f : α → Except Error β} (hx : Reads rest j x)
    (hf : ∀ r, (rest r).length ≤ j → Reads rest' k (f r)) : Reads rest' k (x >>= f) := by
  cases x with
  | ok r => exact hf r hx
  | error e => exact hx

theorem Reads.bind_congr {f g : α → Except Error β} (hx : Reads rest j x)
    (hfg : ∀ r, (rest r).length ≤ j → f r = g r) : x >>= f = x >>= g := by
  cases x with
  | ok r => exact hfg r hx
  | error e => rfl

theorem Reads.map {f : α → β} (hx : Reads rest j x) (hf : ∀ r, (rest r).length ≤ j → (rest' (f r)).length ≤ k) :
    Reads rest' k (x.map f) := by
  cases x with
  | ok r => exact hf r hx
  | error e => exact hx

end Rules

/-! ## Escapes and sets -/

theorem takeUpTo_rest (p : Char → Bool) (n : Nat) (s : List Char) : (takeUpTo p n s).2.length ≤ s.length := by
  induction n generalizing s with
  | zero => exact Nat.le_refl _
  | succ n ih =>
    cases s with
    | nil => exact Nat.le_refl _
    | cons c s =>
      rw [takeUpTo]
      split
      · exact Nat.le_succ_of_le (ih s)
      · exact Nat.le_refl _

theorem classEscape_reads (c : Char) (s : List Char) : Reads Prod.snd s.length (classEscape c s) := by
  unfold classEscape
  split
  · exact Nat.le_refl _
  · exact Nat.le_refl _
  · split_ifs
    · dsimp only
      split_ifs
      · exact takeUpTo_rest _ _ _
      · exact .fail (by decide)
    · exact takeUpTo_rest _ _ _
    · exact .fail (by decide)
    · exact Nat.le_refl _

theorem groupRef_reads (st : PState) (g : Nat) : Reads (fun _ => []) 0 (groupRef st g) := by
  unfold groupRef
  split_ifs
  · exact .fail (by decide)
  · exact .fail (by decide)
  · exact Nat.le_refl _

theorem escape_reads (st : PState) (c : Char) (s : List Char) : Reads Prod.snd s.length (escape st c s) := by
  have href (g : Nat) {t : List Char} (ht : t.length ≤ s.length) :
      Reads Prod.snd s.length ((groupRef st g).map (·, t)) := (groupRef_reads st g).map fun _ _ => ht
  unfold escape
  split
  · exact Nat.le_refl _
  · exact Nat.le_refl _
  · exact Nat.le_refl _
  · split_ifs
    · dsimp only
      split_ifs
      · exact takeUpTo_rest _ _ _
      · exact .fail (by decide)
    · exact takeUpTo_rest _ _ _
    · -- an octal escape, or a reference of one digit or two
      split
      · split_ifs
        · exact Nat.le_add_right _ 2
        · exact href _ (Nat.le_succ _)
        · exact href _ (Nat.le_refl _)
      · split_ifs
        · exact href _ (Nat.zero_le _)
        · exact href _ (Nat.le_refl _)
      · exact href _ (Nat.zero_le _)
    · exact Nat.le_refl _

theorem setCode_reads (s : List Char) : Reads Prod.snd (s.length - 1) (setCode s) := by
  unfold setCode
  split
  · exact .fail (by decide)
  · exact .fail (by decide)
  · exact (classEscape_reads _ _).mono (by simp)
  · exact Nat.le_refl _

theorem parseSet_reads (n : Nat) (s : List Char) (acc : List Regex.Item) : Reads Prod.snd s.length (parseSet n s acc) := by
  induction n generalizing s acc with
  | zero => exact .fail (by decide)
  | succ n ih =>
    rw [parseSet]
    split_ifs
    · exact (List.length_tail ▸ Nat.sub_le _ _ : s.tail.length ≤ s.length)
    · refine (setCode_reads s).bind ?_
      rintro ⟨code1, t⟩ ht
      dsimp only at ht ⊢
      split
      · next u =>
        simp only [List.length_cons] at ht
        have hu : u.length ≤ s.length := by omega
        exact hu
      · next u _ =>
        rw [List.length_cons] at ht
        have hlen : u.length - 1 ≤ s.length := by omega
        refine ((setCode_reads u).mono hlen).bind ?_
        rintro ⟨code2, u⟩ hu
        dsimp only at hu ⊢
        split
        · split_ifs
          · exact .fail (by decide)
          · exact (ih _ _).mono hu
        · exact .fail (by decide)
      · exact (ih _ _).mono (by omega)

/-- A step for each character is enough for a set: without one it is the text
that ends too early. -/
theorem parseSet_enough {n : Nat} {s : List Char} (hn : s.length ≤ n) (acc : List Regex.Item) :
    parseSet (n + 1) s acc = parseSet n s acc := by
  induction n generalizing s acc with
  | zero =>
    obtain rfl := List.length_eq_zero_iff.1 (Nat.le_zero.1 hn)
    rfl
  | succ n ih =>
    rw [parseSet.eq_def (n + 1 + 1), parseSet.eq_def (n + 1)]
    dsimp only
    split_ifs
    · rfl
    · refine (setCode_reads s).bind_congr ?_
      rintro ⟨code1, t⟩ ht
      dsimp only at ht ⊢
      split
      · rfl
      · next u _ =>
        rw [List.length_cons] at ht
        refine (setCode_reads u).bind_congr ?_
        rintro ⟨code2, v⟩ hv
        dsimp only at hv ⊢
        split
        · rw [ih (by omega)]
        · rfl
      · exact ih (by omega) _

/-! ## Repeats and groups -/

theorem repeatLast_reads (lo : Nat) (hi : Option Nat) (s : List Char) (acc : List Regex.Re) :
    Reads Prod.snd s.length (repeatLast lo hi s acc) := by
  unfold repeatLast
  split
  · exact .fail (by decide)
  · exact .fail (by decide)
  · exact .fail (by decide)
  · split
    · exact Nat.le_succ _
    · exact Nat.le_refl _

theorem bounds_reads (lo hi : List Char) : Reads (fun _ => []) 0 (bounds lo hi) := by
  unfold bounds
  split_ifs
  · exact .overflow _
  · exact Nat.le_refl _
  · exact .overflow _
  · exact .fail (by decide)
  · exact Nat.le_refl _

theorem scanName_reads (close : Char) (s : List Char) : Reads Prod.snd s.length (scanName close s) := by
  fun_induction scanName close s with
  | case1 => exact .fail (by decide)
  | case2 => exact .fail (by decide)
  | case3 c s ih => exact ih.map fun _ h => Nat.le_trans h (Nat.le_add_right _ 2)
  | case4 c s hne => exact Nat.le_succ _
  | case5 c s _ _ _ ih => exact ih.map fun _ h => Nat.le_succ_of_le h

theorem groupName_reads (close : Char) (what : String) (hwhat : what ≠ "parser error") (s : List Char) :
    Reads Prod.snd s.length (groupName close what s) := by
  refine (scanName_reads close s).bind ?_
  rintro ⟨name, t⟩ ht
  dsimp only at ht ⊢
  split_ifs
  · exact .fail (by decide)
  · exact ht
  · exact .fail hwhat

theorem knownGroup_reads (st : PState) (name : List Char) : Reads (fun _ => []) 0 (knownGroup st name) := by
  unfold knownGroup
  split
  · exact Nat.le_refl _
  · exact .fail (by decide)

theorem condNumber_reads (s : List Char) : Reads (fun _ => []) 0 (condNumber s) := by
  unfold condNumber
  dsimp only
  split_ifs
  · exact .fail (by decide)
  · exact .overflow _
  · exact Nat.le_refl _

theorem condGroup_reads (st : PState) (s : List Char) : Reads Prod.snd s.length (condGroup st s) := by
  refine (scanName_reads ')' s).bind ?_
  rintro ⟨name, t⟩ ht
  dsimp only at ht ⊢
  split_ifs
  · exact .fail (by decide)
  · exact (knownGroup_reads st name).bind fun _ _ => ht
  · exact (condNumber_reads name).bind fun _ _ => ht

theorem skipComment_reads (s : List Char) : Reads id s.length (skipComment s) := by
  fun_induction skipComment s with
  | case1 => exact .fail (by decide)
  | case2 => exact .fail (by decide)
  | case3 c s ih => exact ih.mono (Nat.le_add_right _ 2)
  | case4 c s hne => exact Nat.le_succ _
  | case5 c s _ _ _ ih => exact ih.mono (Nat.le_succ _)

theorem skipLine_reads (s : List Char) : Reads id s.length (skipLine s) := by
  fun_induction skipLine s with
  | case1 => exact Nat.le_refl _
  | case2 => exact .fail (by decide)
  | case3 c s ih => exact ih.mono (Nat.le_add_right _ 2)
  | case4 c s hne => exact Nat.le_succ _
  | case5 c s _ _ _ ih => exact ih.mono (Nat.le_succ _)

theorem parseFlags_reads (fl : Regex.Flags) (s : List Char) : Reads Prod.snd s.length (parseFlags fl s) := by
  fun_induction parseFlags fl s with
  | case1 => exact .fail (by decide)
  | case2 fl c s fl' hc ih => exact ih.mono (Nat.le_succ _)
  | case3 fl s => exact Nat.le_succ _
  | case4 fl c s => exact .fail (by decide)

theorem openGroup_reads (st : PState) (name : Option (List Char)) : Reads (fun _ => []) 0 (openGroup st name) := by
  unfold openGroup
  split
  · exact Nat.le_refl _
  · split_ifs
    · exact .fail (by decide)
    · exact Nat.le_refl _

theorem close_reads (s : List Char) : Reads id (s.length - 1) (close s) := by
  unfold close
  split
  · exact Nat.le_refl _
  · exact .fail (by decide)

/-- What `(` opens is read within the text. -/
theorem opening_reads (st : PState) (s : List Char) : Reads (fun r => r.2.1) s.length (opening st s) := by
  unfold opening
  split
  · next t =>
    refine ((groupName_reads _ _ (by decide) _).mono (Nat.le_add_right _ 3)).bind ?_
    rintro ⟨name, u⟩ hu
    exact (openGroup_reads _ _).bind fun _ _ => hu
  · next t =>
    refine ((groupName_reads _ _ (by decide) _).mono (Nat.le_add_right _ 3)).bind ?_
    rintro ⟨name, u⟩ hu
    exact (knownGroup_reads _ _).bind fun _ _ => hu
  · next t _ _ =>
    cases t
    · exact .fail (by decide)
    · rw [if_neg (List.cons_ne_nil _ _)]
      exact .fail (by decide)
  · exact Nat.le_add_right _ 2
  · exact ((skipComment_reads _).mono (Nat.le_add_right _ 2)).bind fun _ h => h
  · exact Nat.le_add_right _ 2
  · exact Nat.le_add_right _ 2
  · exact Nat.le_add_right _ 3
  · exact Nat.le_add_right _ 3
  · exact .fail (by decide)
  · exact ((condGroup_reads _ _).mono (Nat.le_add_right _ 2)).bind fun _ h => h
  · split_ifs
    · exact .fail (by decide)
    · exact ((parseFlags_reads _ _).mono (Nat.le_succ _)).bind fun _ h => h
  · exact (openGroup_reads _ _).bind fun _ _ => Nat.le_refl _

/-! ## The parser -/

/-- The rest of what `parse` and `parseSub` return. -/
abbrev restOf {α : Type} (r : α × List Char × PState) : List Char := r.2.1

theorem braces_rest {s t : List Char} {lo hi : List Char} (h : braces s = some ((lo, hi), t)) : t.length ≤ s.length := by
  have hspan (u : List Char) : (u.span Regex.isDigit).2.length ≤ u.length := by
    rw [List.span_eq_takeWhile_dropWhile]
    exact (List.dropWhile_suffix _).length_le
  have hlow := hspan s
  unfold braces at h
  split_ifs at h with hempty
  dsimp only at h
  split at h
  · next u hu =>
    obtain ⟨-, rfl⟩ := Prod.mk.inj (Option.some.inj h)
    -- the upper bound is read after the comma, if there is one
    split at hu
    · next v hv =>
      have hhigh := hspan v
      rw [hv] at hlow
      rw [hu] at hhigh
      simp only [List.length_cons] at hlow hhigh
      omega
    · rw [hu] at hlow
      exact Nat.le_of_succ_le hlow
  · cases h

/-- A pattern's items and branches are read in a step for each character and one
for each level of nesting. -/
theorem parse_reads (n : Nat) :
    (∀ s st acc, 2 * s.length + 1 ≤ n → Reads restOf s.length (parse n s st acc)) ∧
      ∀ s st, 2 * s.length + 2 ≤ n → Reads restOf s.length (parseSub n s st) := by
  induction n with
  | zero => exact ⟨fun _ _ _ h => absurd h (Nat.not_succ_le_zero _), fun _ _ h => absurd h (Nat.not_succ_le_zero _)⟩
  | succ n ih =>
    obtain ⟨ihItems, ihSub⟩ := ih
    constructor
    · intro s st acc hn
      cases s with
      | nil => exact Nat.le_refl _
      | cons c s =>
        rw [List.length_cons] at hn
        -- what is left of `s` is read with the steps that are left
        have hitems {t : List Char} (ht : t.length ≤ s.length) (st acc) :
            Reads restOf (s.length + 1) (parse n t st acc) :=
          (ihItems t st acc (by omega)).mono (by omega)
        have hsub {t : List Char} (ht : t.length ≤ s.length) (st) : Reads restOf s.length (parseSub n t st) :=
          (ihSub t st (by omega)).mono ht
        have hclose {t : List Char} (ht : t.length ≤ s.length) (st acc) : Reads restOf (s.length + 1) (do
            parse n (← close t) st acc) :=
          ((close_reads t).mono (Nat.le_trans (Nat.sub_le _ _) ht)).bind fun _ hu => hitems hu _ _
        have hrepeat (lo hi) {t : List Char} (ht : t.length ≤ s.length) :
            Reads restOf (s.length + 1) (repeatLast lo hi t acc >>= fun p => parse n p.2 st p.1) :=
          ((repeatLast_reads lo hi t acc).mono ht).bind fun _ hu => hitems hu _ _
        unfold parse
        split_ifs
        · exact Nat.le_refl _
        · exact hitems (Nat.le_refl _) _ _
        · exact ((skipLine_reads s).bind fun _ ht => hitems ht _ _)
        · split
          · -- an escape
            split
            · exact .fail (by decide)
            · next _ e t =>
              refine ((escape_reads st e t).mono (Nat.le_succ _)).bind ?_
              rintro ⟨r, u⟩ hu
              exact hitems hu _ _
          · -- a set
            have hset : (if s.head? = some '^' then s.tail else s).length ≤ s.length := by
              split_ifs
              · exact List.length_tail ▸ Nat.sub_le _ _
              · exact Nat.le_refl _
            dsimp only
            refine ((parseSet_reads _ _ _).mono hset).bind ?_
            rintro ⟨items, t⟩ ht
            exact hitems ht _ _
          · exact hrepeat 0 none (Nat.le_refl _)
          · exact hrepeat 1 none (Nat.le_refl _)
          · exact hrepeat 0 (some 1) (Nat.le_refl _)
          · -- a brace, with bounds or for itself
            split
            · exact hitems (Nat.le_refl _) _ _
            · next lo hi t ht =>
              refine (bounds_reads lo hi).bind ?_
              rintro ⟨lo, hi⟩ -
              exact hrepeat lo hi (braces_rest ht)
          · exact hitems (Nat.le_refl _) _ _
          · exact hitems (Nat.le_refl _) _ _
          · exact hitems (Nat.le_refl _) _ _
          · refine (opening_reads st s).bind ?_
            rintro ⟨o, t, st⟩ ht
            dsimp only at ht ⊢
            cases o with
            | nothing => exact hitems ht _ _
            | ref r => exact hitems ht _ _
            | look behind neg =>
              refine (hsub ht st).bind ?_
              rintro ⟨r, u, st⟩ hu
              exact hclose hu _ _
            | group g =>
              refine (hsub ht st).bind ?_
              rintro ⟨r, u, st⟩ hu
              exact hclose hu _ _
            | cond g =>
              refine ((ihItems t st [] (by omega)).mono ht).bind ?_
              rintro ⟨yes, u, st⟩ hu
              dsimp only [restOf] at hu ⊢
              split
              · next v =>
                rw [List.length_cons] at hu
                refine ((ihItems v st [] (by omega)).mono (by omega : _ ≤ s.length)).bind ?_
                rintro ⟨no, w, st⟩ hw
                dsimp only [restOf] at hw ⊢
                split_ifs
                · exact .fail (by decide)
                · exact hclose hw _ _
              · exact hclose hu _ _
          · exact hitems (Nat.le_refl _) _ _
    · intro s st hn
      unfold parseSub
      refine (ihItems s st [] (by omega)).bind ?_
      rintro ⟨items, t, st⟩ ht
      dsimp only [restOf] at ht ⊢
      split
      · next u =>
        simp only [List.length_cons] at ht
        refine ((ihSub u st (by omega)).mono (by omega : _ ≤ s.length)).bind ?_
        rintro ⟨r, v, st⟩ hv
        exact hv
      · exact ht

theorem parseAll_reads (fl : Regex.Flags) (pattern : List Char) :
    Reads (fun _ => []) 0 (parseAll fl pattern) := by
  refine ((parse_reads _).2 pattern { flags := fl } (Nat.le_succ _)).bind ?_
  rintro ⟨r, t, st⟩ -
  dsimp only
  split
  · exact Nat.le_refl _
  · exact .fail (by decide)
  · exact .fail (by decide)

theorem refused_ne (fl : Regex.Flags) (groups : Nat) (r : Regex.Re) : refused fl groups r ≠ some outOfSteps := by
  induction r with
  | cat r t hr ht => simp [refused, Option.or_eq_some_iff, hr, ht]
  | alt r t hr ht => simp [refused, Option.or_eq_some_iff, hr, ht]
  | group _ r hr => exact hr
  | cond n r t hr ht =>
    rw [refused]
    split_ifs
    · decide
    · simp [Option.or_eq_some_iff, hr, ht]
  | look behind _ r hr =>
    rw [refused]
    split_ifs
    · decide
    · exact hr
  | rep _ _ _ r hr =>
    rw [refused]
    split_ifs
    · decide
    · exact hr
  | _ => exact fun h => by cases h

theorem compile_reads (pattern : List Char) : Reads (fun _ => []) 0 (compile pattern) := by
  have hcount (r : Regex.Re) (st : PState) : Reads (fun _ : Regex.Flags × Regex.Re => []) 0
      (if 100 < st.groups then .error (.error "sorry, but this version only supports 100 named groups")
        else pure (st.flags, r)) := by
    split_ifs
    · exact .fail (by decide)
    · exact Nat.le_refl _
  refine (parseAll_reads {} pattern).bind ?_
  rintro ⟨r, st⟩ -
  have hfirst : Reads (fun _ => []) 0 (Except.ok (r, st) : Except Error (Regex.Re × PState)) := Nat.le_refl _
  dsimp only
  split_ifs
  on_goal 1 => refine (parseAll_reads st.flags pattern).bind ?_
  on_goal 2 => refine hfirst.bind ?_
  all_goals
    rintro ⟨r, st⟩ -
    dsimp only
    split
    · next e he => exact fun h => refused_ne _ _ _ (h ▸ he)
    · exact hcount r st

/-- A pattern that is refused breaks a rule of the syntax, however long it is. -/
theorem compile_ne_outOfSteps (pattern : List Char) : compile pattern ≠ .error outOfSteps := by
  intro h
  have hreads := compile_reads pattern
  rw [h] at hreads
  exact hreads rfl

end ProGuide.Lib.SreParse
