import Mathlib.Data.List.Basic
/-!
# Runs

Two kinds of machine. One takes inputs and answers each: what its state holds is
described by the inputs so far, and so is when an answer is right. The other
takes the actions that are possible in its state, each at some cost: what its
state holds is described by the cost so far.
-/

namespace ProGuide.Lib.Runs

variable {S A O : Type}

/-! ## Machines with answers -/

section Answers
variable (step : S → A → S × O)

/-- The answers to some inputs. -/
def outputs : S → List A → List O
  | _, [] => []
  | s, a :: as => (step s a).2 :: outputs (step s a).1 as

/-- The state after some inputs. -/
def final : S → List A → S
  | s, [] => s
  | s, a :: as => final (step s a).1 as

variable {step}

theorem final_append (s : S) (as bs : List A) : final step s (as ++ bs) = final step (final step s as) bs := by
  induction as generalizing s with
  | nil => rfl
  | cons a as ih => exact ih _

theorem outputs_append (s : S) (as bs : List A) :
    outputs step s (as ++ bs) = outputs step s as ++ outputs step (final step s as) bs := by
  induction as generalizing s with
  | nil => rfl
  | cons a as ih => exact congrArg _ (ih _)

theorem outputs_length (s : S) (as : List A) : (outputs step s as).length = as.length := by
  induction as generalizing s with
  | nil => rfl
  | cons a as ih => exact congrArg (· + 1) (ih _)

/-- The answer to one of some inputs. -/
theorem outputs_getElem (s : S) (pre post : List A) (a : A) :
    (outputs step s (pre ++ a :: post))[pre.length]? = some (step (final step s pre) a).2 := by
  rw [outputs_append, List.getElem?_append_right (Nat.le_of_eq (outputs_length s pre)), outputs_length, Nat.sub_self]
  rfl

/-- What every input keeps, given those before it, every run keeps. -/
theorem final_invariant {I : List A → S → Prop} (hstep : ∀ pre s a, I pre s → I (pre ++ [a]) (step s a).1)
    {pre : List A} {s : S} (h : I pre s) (as : List A) : I (pre ++ as) (final step s as) := by
  induction as generalizing pre s with
  | nil => rwa [List.append_nil]
  | cons a as ih =>
    have := ih (hstep pre s a h)
    rwa [List.append_assoc] at this

/-- Two machines whose states stay related give the same answers, for inputs that
keep them so. -/
theorem outputs_eq {T : Type} {abs : T → A → T × O} {R : S → T → Prop} {ok : A → Prop}
    (hstep : ∀ s t a, ok a → R s t → R (step s a).1 (abs t a).1 ∧ (step s a).2 = (abs t a).2) {as : List A} {s : S}
    {t : T} (h : R s t) (hok : ∀ a ∈ as, ok a) :
    outputs step s as = outputs abs t as ∧ R (final step s as) (final abs t as) := by
  induction as generalizing s t with
  | nil => exact ⟨rfl, h⟩
  | cons a as ih =>
    obtain ⟨hnext, hanswer⟩ := hstep s t a (hok a List.mem_cons_self) h
    obtain ⟨houts, hfinal⟩ := ih hnext fun b hb => hok b (List.mem_cons_of_mem a hb)
    exact ⟨by rw [outputs, outputs, hanswer, houts], hfinal⟩

/-- `H` describes the state by the inputs so far. -/
def Describes (step : S → A → S × O) (H : List A → S → Prop) : Prop :=
  ∀ pre s a, H pre s → H (pre ++ [a]) (step s a).1

/-- Every answer of a run is right exactly when every input of the run meets the
condition that decides it, given the inputs before. -/
theorem outputs_right_iff {H : List A → S → Prop} (hstep : Describes step H) {right : A → O → Prop}
    {ok : List A → A → Prop} (hok : ∀ pre s a, H pre s → (right a (step s a).2 ↔ ok pre a)) {pre : List A} {s : S}
    (h : H pre s) (as : List A) :
    List.Forall₂ right as (outputs step s as) ↔ ∀ mid a post, as = mid ++ a :: post → ok (pre ++ mid) a := by
  induction as generalizing pre s with
  | nil => simp [outputs]
  | cons a as ih =>
    rw [outputs, List.forall₂_cons, hok pre s a h, ih (hstep pre s a h)]
    constructor
    · rintro ⟨ha, has⟩ mid b post heq
      rcases mid with _ | ⟨c, mid⟩
      · obtain ⟨rfl, rfl⟩ := List.cons.inj heq
        rwa [List.append_nil]
      · obtain ⟨rfl, hrest⟩ := List.cons.inj heq
        have := has mid b post hrest
        rwa [List.append_assoc] at this
    · intro hall
      refine ⟨?_, fun mid b post heq => ?_⟩
      · have := hall [] a as rfl
        rwa [List.append_nil] at this
      · have := hall (a :: mid) b post (by rw [heq]; rfl)
        rwa [List.append_assoc]

/-- Two machines agree all along a run exactly when every input of it meets the
condition for agreeing after it. -/
theorem agree_iff {T : Type} {f : S → A → S} {g : T → A → T} {P I : S → T → Prop} {ok : T → A → Prop}
    (hstep : ∀ s t a, P s t → I s t → (P (f s a) (g t a) ↔ ok t a) ∧ (P (f s a) (g t a) → I (f s a) (g t a))) {s : S}
    {t : T} (hP : P s t) (hI : I s t) (as : List A) :
    (∀ pre post, as = pre ++ post → P (pre.foldl f s) (pre.foldl g t)) ↔
      ∀ pre a post, as = pre ++ a :: post → ok (pre.foldl g t) a := by
  induction as generalizing s t with
  | nil =>
    refine ⟨fun _ pre a post h => by simp at h, fun _ pre post h => ?_⟩
    rw [(List.append_eq_nil_iff.1 h.symm).1]
    exact hP
  | cons a as ih =>
    obtain ⟨hiff, hinv⟩ := hstep s t a hP hI
    constructor
    · intro hall pre b post heq
      have hnext : P (f s a) (g t a) := hall [a] as rfl
      rcases pre with _ | ⟨c, pre⟩
      · obtain ⟨rfl, -⟩ := List.cons.inj heq
        exact hiff.1 hnext
      · obtain ⟨rfl, hrest⟩ := List.cons.inj heq
        exact (ih hnext (hinv hnext)).1 (fun pre post h => hall (a :: pre) post (by rw [h]; rfl)) pre b post hrest
    · intro hall pre post heq
      rcases pre with _ | ⟨c, pre⟩
      · exact hP
      · obtain ⟨rfl, hrest⟩ := List.cons.inj heq
        have hnext : P (f s a) (g t a) := hiff.2 (hall [] a as rfl)
        exact (ih hnext (hinv hnext)).2 (fun pre b post h => hall (a :: pre) b post (by rw [h]; rfl)) pre post hrest

end Answers

/-! ## Machines with possible actions -/

section Actions
variable (step : S → A → Option S)

/-- The state after some actions, if each was possible. -/
def exec : S → List A → Option S
  | s, [] => some s
  | s, a :: as => (step s a).bind fun t => exec t as

/-- The cost of the actions of a run. -/
def tally (cost : S → A → Nat) : S → List A → Nat
  | _, [] => 0
  | s, a :: as => cost s a + ((step s a).map fun t => tally cost t as).getD 0

/-- What the actions of a run give out, in order. -/
def gather {B : Type} (emit : S → A → List B) : S → List A → List B
  | _, [] => []
  | s, a :: as => emit s a ++ ((step s a).map fun t => gather emit t as).getD []

variable {step}

theorem exec_cons {s u : S} {a : A} {as : List A} (h : exec step s (a :: as) = some u) :
    ∃ t, step s a = some t ∧ exec step t as = some u := Option.bind_eq_some_iff.1 h

/-- What every step keeps, given the cost so far, every run keeps. -/
theorem exec_invariant {cost : S → A → Nat} {I : Nat → S → Prop}
    (hstep : ∀ m s a t, I m s → step s a = some t → I (m + cost s a) t) {m : Nat} {s u : S} {as : List A} (h : I m s)
    (hrun : exec step s as = some u) : I (m + tally step cost s as) u := by
  induction as generalizing m s with
  | nil =>
    obtain rfl := Option.some.inj hrun
    exact h
  | cons a as ih =>
    obtain ⟨t, ht, hrest⟩ := exec_cons hrun
    have hi := ih (hstep m s a t h ht) hrest
    rw [tally, ht, Option.map_some, Option.getD_some, ← Nat.add_assoc]
    exact hi

theorem exec_append {s u : S} {as bs : List A} (h : exec step s as = some u) :
    exec step s (as ++ bs) = exec step u bs := by
  induction as generalizing s with
  | nil =>
    obtain rfl := Option.some.inj h
    rfl
  | cons a as ih =>
    obtain ⟨t, ht, hrest⟩ := exec_cons h
    rw [List.cons_append, exec, ht]
    exact ih hrest

/-- The last action of a run. -/
theorem exec_snoc {s u : S} {as : List A} {a : A} (h : exec step s (as ++ [a]) = some u) :
    ∃ t, exec step s as = some t ∧ step t a = some u := by
  induction as generalizing s with
  | nil =>
    obtain ⟨t, ht, hu⟩ := exec_cons h
    obtain rfl := Option.some.inj hu
    exact ⟨s, rfl, ht⟩
  | cons b as ih =>
    obtain ⟨t, ht, hrest⟩ := exec_cons h
    obtain ⟨v, hv, hu⟩ := ih hrest
    refine ⟨v, ?_, hu⟩
    rw [exec, ht]
    exact hv

theorem tally_append {cost : S → A → Nat} {s u : S} {as bs : List A} (h : exec step s as = some u) :
    tally step cost s (as ++ bs) = tally step cost s as + tally step cost u bs := by
  induction as generalizing s with
  | nil =>
    obtain rfl := Option.some.inj h
    rw [tally, Nat.zero_add, List.nil_append]
  | cons a as ih =>
    obtain ⟨t, ht, hrest⟩ := exec_cons h
    rw [List.cons_append, tally, tally, ht, Option.map_some, Option.getD_some, Option.map_some, Option.getD_some,
      ih hrest, Nat.add_assoc]

/-- What every step keeps that meets a condition, every run of such steps keeps. -/
theorem exec_keeps_when {I : S → Prop} {ok : S → A → Prop}
    (hstep : ∀ s a t, ok s a → I s → step s a = some t → I t) {s u : S} {as : List A} (h : I s)
    (hrun : exec step s as = some u)
    (hok : ∀ pre a post t, as = pre ++ a :: post → exec step s pre = some t → ok t a) : I u := by
  induction as generalizing s with
  | nil =>
    obtain rfl := Option.some.inj hrun
    exact h
  | cons a as ih =>
    obtain ⟨t, ht, hrest⟩ := exec_cons hrun
    refine ih (hstep s a t (hok [] a as s rfl rfl) h ht) hrest fun pre b post v heq hpre => ?_
    refine hok (a :: pre) b post v (by rw [heq]; rfl) ?_
    rw [exec, ht]
    exact hpre

/-- What every step keeps, every run keeps. -/
theorem exec_keeps {I : S → Prop} (hstep : ∀ s a t, I s → step s a = some t → I t) {s u : S} {as : List A} (h : I s)
    (hrun : exec step s as = some u) : I u := by
  have hwhen : ∀ s a t, True → I s → step s a = some t → I t := fun s a t _ => hstep s a t
  exact exec_keeps_when hwhen h hrun fun _ _ _ _ _ _ => trivial

/-- What every step keeps, given all that was given out so far, every run keeps. -/
theorem exec_gather {B : Type} {emit : S → A → List B} {I : List B → S → Prop}
    (hstep : ∀ bs s a t, I bs s → step s a = some t → I (bs ++ emit s a) t) {bs : List B} {s u : S} {as : List A}
    (h : I bs s) (hrun : exec step s as = some u) : I (bs ++ gather step emit s as) u := by
  induction as generalizing bs s with
  | nil =>
    obtain rfl := Option.some.inj hrun
    rwa [gather, List.append_nil]
  | cons a as ih =>
    obtain ⟨t, ht, hrest⟩ := exec_cons hrun
    have hi := ih (hstep bs s a t h ht) hrest
    rw [gather, ht, Option.map_some, Option.getD_some, ← List.append_assoc]
    exact hi

/-- A run costs nothing exactly when no action of it does. -/
theorem tally_eq_zero {cost : S → A → Nat} {s u : S} {as : List A} (hrun : exec step s as = some u) :
    tally step cost s as = 0 ↔
      ∀ pre a post t, as = pre ++ a :: post → exec step s pre = some t → cost t a = 0 := by
  induction as generalizing s with
  | nil => simp [tally]
  | cons a as ih =>
    obtain ⟨t, ht, hrest⟩ := exec_cons hrun
    rw [tally, ht, Option.map_some, Option.getD_some, Nat.add_eq_zero_iff, ih hrest]
    constructor
    · rintro ⟨ha, has⟩ pre b post v heq hpre
      rcases pre with _ | ⟨c, pre⟩
      · obtain ⟨rfl, -⟩ := List.cons.inj heq
        obtain rfl := Option.some.inj hpre
        exact ha
      · obtain ⟨rfl, hpost⟩ := List.cons.inj heq
        obtain ⟨t', ht', hpre⟩ := exec_cons hpre
        obtain rfl := Option.some.inj (ht.symm.trans ht')
        exact has pre b post v hpost hpre
    · intro hall
      refine ⟨hall [] a as s rfl rfl, fun pre b post v heq hpre => ?_⟩
      refine hall (a :: pre) b post v (by rw [heq]; rfl) ?_
      rw [exec, ht]
      exact hpre

/-- What the cost of a whole run decides holds exactly when no action of it costs. -/
theorem exec_iff {cost : S → A → Nat} {I : Nat → S → Prop}
    (hstep : ∀ m s a t, I m s → step s a = some t → I (m + cost s a) t) {s u : S} {as : List A} (h : I 0 s)
    (hrun : exec step s as = some u) {P : Prop} (hP : ∀ m, I m u → (P ↔ m = 0)) :
    P ↔ ∀ pre a post t, as = pre ++ a :: post → exec step s pre = some t → cost t a = 0 := by
  have hi := exec_invariant hstep h hrun
  rw [Nat.zero_add] at hi
  rw [hP _ hi, tally_eq_zero hrun]

end Actions

end ProGuide.Lib.Runs
