import ProGuide.Lib.Text
import ProGuide.Lib.Regex
/-!
# Rules of the matcher

How the outcomes of `Regex.run` compose: sequences, literal texts, repeats of a
body that reads one character, and substitution over stretches of text that
hold no match.
-/
open ProGuide.Lib.Text

namespace ProGuide.Lib.Regex

variable (fl : Flags)

/-! ## Sequences and literal texts -/

@[simp] theorem run_empty (s : St) : run fl .empty s = [s] := rfl

theorem run_catAll_cons (r : Re) (rs : List Re) (s : St) :
    run fl (catAll (r :: rs)) s = (run fl r s).flatMap (run fl (catAll rs)) := rfl

theorem run_catAll_append (rs rs' : List Re) (s : St) :
    run fl (catAll (rs ++ rs')) s = (run fl (catAll rs) s).flatMap (run fl (catAll rs')) := by
  induction rs generalizing s with
  | nil => simp [catAll]
  | cons r rs ih =>
    rw [List.cons_append, run_catAll_cons, run_catAll_cons, List.flatMap_assoc]
    exact List.flatMap_congr fun t _ => ih t

theorem same_iff (h : fl.ignorecase = false) (c d : Char) : same fl c d = true ↔ c = d := by
  simp [same, h]

/-- A literal text reads exactly itself. -/
theorem run_lits (h : fl.ignorecase = false) (w b a : List Char) (k) :
    run fl (lits w) ⟨b, w ++ a, k⟩ = [⟨w.reverse ++ b, a, k⟩] := by
  induction w generalizing b with
  | nil => rfl
  | cons c w ih =>
    have hc : run fl (.lit c) ⟨b, c :: (w ++ a), k⟩ = [⟨c :: b, w ++ a, k⟩] := by
      simp [run, St.eat, same_iff fl h]
    rw [lits, List.map_cons, List.cons_append, run_catAll_cons, hc, List.flatMap_singleton]
    simpa [lits] using ih (c :: b)

theorem run_lits_none (h : fl.ignorecase = false) {w a : List Char} (hw : ¬ w <+: a) (b : List Char) (k) :
    run fl (lits w) ⟨b, a, k⟩ = [] := by
  induction w generalizing a b with
  | nil => exact absurd List.nil_prefix hw
  | cons c w ih =>
    rw [lits, List.map_cons, run_catAll_cons]
    cases a with
    | nil => rfl
    | cons d a =>
      simp only [run, St.eat]
      split
      · next hs =>
        obtain rfl := (same_iff fl h c d).1 hs
        rw [List.flatMap_singleton]
        exact ih (fun hp => hw (List.cons_prefix_cons.2 ⟨rfl, hp⟩)) _
      · rfl

/-- A literal text at the head of a sequence is read first. -/
theorem run_lits_append (h : fl.ignorecase = false) (w b a : List Char) (k) (rs : List Re) :
    run fl (catAll (w.map .lit ++ rs)) ⟨b, w ++ a, k⟩ = run fl (catAll rs) ⟨w.reverse ++ b, a, k⟩ := by
  have hw : run fl (catAll (w.map .lit)) ⟨b, w ++ a, k⟩ = [⟨w.reverse ++ b, a, k⟩] := run_lits fl h w b a k
  rw [run_catAll_append, hw, List.flatMap_singleton]

theorem run_lits_append_none (h : fl.ignorecase = false) {w a : List Char} (hw : ¬ w <+: a) (b : List Char) (k)
    (rs : List Re) : run fl (catAll (w.map .lit ++ rs)) ⟨b, a, k⟩ = [] := by
  have hnone : run fl (catAll (w.map .lit)) ⟨b, a, k⟩ = [] := run_lits_none fl h hw b k
  rw [run_catAll_append, hnone]
  rfl

/-! ## Repeats of a one-character body -/

/-- `body` reads one character where `q` allows the remaining text, and nothing
else. -/
def OneChar (body : St → List St) (q : List Char → Bool) : Prop :=
  (∀ b k, body ⟨b, [], k⟩ = []) ∧
    ∀ b c a k, body ⟨b, c :: a, k⟩ = if q (c :: a) then [⟨c :: b, a, k⟩] else []

/-- The places reached by reading on while `q` allows it, nearest first. -/
def walk (q : List Char → Bool) (k : List (Nat × List Char)) : List Char → List Char → List St
  | b, [] => [⟨b, [], k⟩]
  | b, c :: a => ⟨b, c :: a, k⟩ :: if q (c :: a) then walk q k (c :: b) a else []

theorem loop_walk {body : St → List St} {q : List Char → Bool} (hb : OneChar body q) (greedy : Bool)
    (a : List Char) (b : List Char) (k) (fuel n : Nat) (last : Option Nat) (hf : a.length < fuel)
    (hl : last ≠ some a.length) :
    loop greedy 0 none body fuel n last ⟨b, a, k⟩ = if greedy then (walk q k b a).reverse else walk q k b a := by
  induction a generalizing b fuel n last with
  | nil =>
    obtain ⟨fuel, rfl⟩ := Nat.exists_eq_succ_of_ne_zero (Nat.ne_of_gt hf)
    simp [loop, walk, hb.1]
  | cons c a ih =>
    obtain ⟨fuel, rfl⟩ := Nat.exists_eq_succ_of_ne_zero (Nat.ne_of_gt (Nat.lt_of_le_of_lt (Nat.zero_le _) hf))
    simp only [List.length_cons] at hf hl
    simp only [loop, walk, Nat.not_lt_zero, if_false, Option.all_none, Bool.true_and, List.length_cons,
      decide_eq_true hl, if_true, hb.2]
    by_cases hq : q (c :: a) = true
    · simp only [hq, if_true, List.flatMap_singleton]
      rw [ih (c :: b) fuel (n + 1) _ (by omega) (by simp)]
      cases greedy <;> simp
    · cases greedy <;> simp [hq]

/-- A greedy repeat tries the furthest place first. -/
theorem run_greedy {r : Re} {q : List Char → Bool} (hb : OneChar (run fl r) q) (b a : List Char) (k) :
    run fl (.rep true 0 none r) ⟨b, a, k⟩ = (walk q k b a).reverse := by
  have h := loop_walk hb true a b k (0 + a.length + 2) 0 none (by omega) (by simp)
  simpa [run] using h

/-- A lazy repeat tries the nearest place first. -/
theorem run_lazy {r : Re} {q : List Char → Bool} (hb : OneChar (run fl r) q) (b a : List Char) (k) :
    run fl (.rep false 0 none r) ⟨b, a, k⟩ = walk q k b a := by
  have h := loop_walk hb false a b k (0 + a.length + 2) 0 none (by omega) (by simp)
  simpa [run] using h

/-- A walk stays within the text it reads. -/
theorem mem_walk {q : List Char → Bool} {k b a t} (h : t ∈ walk q k b a) :
    ∃ x y, a = x ++ y ∧ t = ⟨x.reverse ++ b, y, k⟩ := by
  induction a generalizing b with
  | nil =>
    simp only [walk, List.mem_singleton] at h
    exact ⟨[], [], rfl, h⟩
  | cons c a ih =>
    simp only [walk, List.mem_cons] at h
    rcases h with rfl | h
    · exact ⟨[], c :: a, rfl, rfl⟩
    · split at h
      · obtain ⟨x, y, rfl, rfl⟩ := ih h
        exact ⟨c :: x, y, rfl, by simp⟩
      · cases h

/-- A walk under "`z` does not start here" ends no later than the first `z`. -/
theorem mem_walk_guarded {z x : List Char} {k b rest t} (hz : z ≠ [])
    (h : t ∈ walk (fun s => ¬ z <+: s) k b (x ++ (z ++ rest))) :
    ∃ u v, x = u ++ v ∧ t = ⟨u.reverse ++ b, v ++ (z ++ rest), k⟩ := by
  induction x generalizing b with
  | nil =>
    obtain ⟨c, z, rfl⟩ := List.exists_cons_of_ne_nil hz
    simp only [List.nil_append, List.cons_append, walk, List.mem_cons] at h
    rcases h with rfl | h
    · exact ⟨[], [], rfl, rfl⟩
    · simp [List.cons_prefix_cons] at h
  | cons c x ih =>
    simp only [List.cons_append, walk, List.mem_cons] at h
    rcases h with rfl | h
    · exact ⟨[], c :: x, rfl, rfl⟩
    · split at h
      · obtain ⟨u, v, rfl, rfl⟩ := ih h
        exact ⟨c :: u, v, rfl, by simp⟩
      · cases h

/-- Every place before the first `z` is on the guarded walk. -/
theorem walk_guarded_mem {z x y t : List Char} (h : NoStart z (x ++ y) t) (k b) :
    ⟨x.reverse ++ b, y ++ t, k⟩ ∈ walk (fun s => ¬ z <+: s) k b (x ++ (y ++ t)) := by
  induction x generalizing b with
  | nil => cases y ++ t <;> simp [walk]
  | cons c x ih =>
    have hc : ¬ z <+: c :: (x ++ (y ++ t)) := by simpa using h.1
    simp only [List.cons_append, walk, List.mem_cons]
    right
    simpa [hc] using ih h.2 (c :: b)

theorem walk_nodup (q : List Char → Bool) (k b a) : (walk q k b a).Nodup := by
  induction a generalizing b with
  | nil => simp [walk]
  | cons c a ih =>
    simp only [walk, List.nodup_cons]
    refine ⟨fun h => ?_, by split <;> simp [ih]⟩
    split at h
    · obtain ⟨x, y, hxy, he⟩ := mem_walk h
      have hlen := congrArg List.length hxy
      have hy := congrArg (fun s : St => s.after.length) he
      simp only [List.length_append, List.length_cons] at hlen hy
      omega
    · cases h

theorem flatMap_unique {α β : Type} {f : α → List β} {l : List α} {x : α} (hx : x ∈ l) (hn : l.Nodup)
    (h : ∀ y ∈ l, y ≠ x → f y = []) : l.flatMap f = f x := by
  induction l with
  | nil => cases hx
  | cons y l ih =>
    obtain ⟨hy, hn⟩ := List.nodup_cons.1 hn
    rw [List.flatMap_cons]
    rcases List.mem_cons.1 hx with rfl | hx
    · have : l.flatMap f = [] :=
        List.flatMap_eq_nil_iff.2 fun z hz => h z (List.mem_cons_of_mem _ hz) (by rintro rfl; exact hy hz)
      rw [this, List.append_nil]
    · rw [h y List.mem_cons_self (by rintro rfl; exact hy hx), List.nil_append]
      exact ih hx hn fun z hz => h z (List.mem_cons_of_mem _ hz)

/-- The first outcome of "anything, then `z`" ends at the first `z`. -/
theorem walk_lits (h : fl.ignorecase = false) {z y rest : List Char} (hy : NoStart z y (z ++ rest)) (b k) :
    ∃ ts, (walk (fun _ => true) k b (y ++ (z ++ rest))).flatMap (run fl (lits z)) =
      ⟨z.reverse ++ (y.reverse ++ b), rest, k⟩ :: ts := by
  induction y generalizing b with
  | nil =>
    have hw : ∃ ts, walk (fun _ => true) k b (z ++ rest) = ⟨b, z ++ rest, k⟩ :: ts := by
      cases z ++ rest <;> simp [walk]
    obtain ⟨ts, hts⟩ := hw
    refine ⟨ts.flatMap (run fl (lits z)), ?_⟩
    rw [List.nil_append, hts, List.flatMap_cons, run_lits fl h]
    rfl
  | cons c y ih =>
    obtain ⟨ts, hts⟩ := ih hy.2 (c :: b)
    refine ⟨ts, ?_⟩
    rw [List.cons_append, walk, if_pos rfl, List.flatMap_cons, run_lits_none fl h hy.1, List.nil_append, hts]
    simp

/-! ## Steps of a repeat -/

/-- Whatever the body reads, it does not put text back. -/
def Forward (body : St → List St) : Prop := ∀ s, ∀ t ∈ body s, t.after.length ≤ s.after.length

theorem loop_forward {body : St → List St} (hb : Forward body) (greedy : Bool) (lo : Nat) (hi : Option Nat)
    (fuel n : Nat) (last : Option Nat) : Forward (loop greedy lo hi body fuel n last) := by
  induction fuel generalizing n last with
  | zero => exact fun s t ht => absurd ht List.not_mem_nil
  | succ fuel ih =>
    intro s t ht
    have hround (n last) (h : t ∈ (body s).flatMap (loop greedy lo hi body fuel n last)) :
        t.after.length ≤ s.after.length := by
      obtain ⟨u, hu, hut⟩ := List.mem_flatMap.1 h
      exact Nat.le_trans (ih n last u t hut) (hb s u hu)
    have hmore {c : Bool} (h : t ∈ if c then (body s).flatMap (loop greedy lo hi body fuel (n + 1) (some s.after.length)) else []) :
        t.after.length ≤ s.after.length := by
      split at h
      · exact hround _ _ h
      · cases h
    rw [loop] at ht
    split at ht
    · exact hround _ _ ht
    · cases hg : greedy with
      | true =>
        rw [if_pos hg] at ht
        rcases List.mem_append.1 ht with h | h
        · exact hmore h
        · rw [List.mem_singleton.1 h]
      | false =>
        rw [if_neg (by simp [hg])] at ht
        rcases List.mem_cons.1 ht with h | h
        · rw [h]
        · exact hmore h

theorem eat_forward (p : Char → Bool) : Forward (St.eat p) := by
  rintro ⟨b, a, k⟩ t ht
  cases a with
  | nil => cases ht
  | cons c a =>
    rw [St.eat] at ht
    split at ht
    · obtain rfl := List.mem_singleton.1 ht
      exact Nat.le_succ _
    · cases ht

theorem backref_forward (w : List Char) {s : St} {ss : List St} (h : ∀ u ∈ ss, u.after.length ≤ s.after.length) :
    ∀ t ∈ w.foldl (fun ss c => ss.flatMap (·.eat (same fl c))) ss, t.after.length ≤ s.after.length := by
  induction w generalizing ss with
  | nil => exact h
  | cons c w ih =>
    refine ih fun t ht => ?_
    obtain ⟨u, hu, hut⟩ := List.mem_flatMap.1 ht
    exact Nat.le_trans (eat_forward _ u t hut) (h u hu)

theorem run_forward (r : Re) : Forward (run fl r) := by
  induction r with
  | empty =>
    intro s t ht
    rw [List.mem_singleton.1 ht]
  | lit c => exact eat_forward _
  | notLit c => exact eat_forward _
  | any => exact eat_forward _
  | set neg items => exact eat_forward _
  | anchor a =>
    intro s t ht
    rw [run] at ht
    split at ht
    · rw [List.mem_singleton.1 ht]
    · cases ht
  | cat r r' hr hr' =>
    intro s t ht
    obtain ⟨u, hu, hut⟩ := List.mem_flatMap.1 ht
    exact Nat.le_trans (hr' u t hut) (hr s u hu)
  | alt r r' hr hr' =>
    intro s t ht
    rcases List.mem_append.1 ht with h | h
    · exact hr s t h
    · exact hr' s t h
  | group n r hr =>
    intro s t ht
    cases n with
    | none => exact hr s t ht
    | some n =>
      obtain ⟨u, hu, rfl⟩ := List.mem_map.1 ht
      exact hr s u hu
  | backref n =>
    intro s t ht
    rw [run] at ht
    split at ht
    · cases ht
    · refine backref_forward fl _ ?_ t ht
      intro u hu
      rw [List.mem_singleton.1 hu]
  | cond n r r' hr hr' =>
    intro s t ht
    rw [run] at ht
    split at ht
    · exact hr s t ht
    · exact hr' s t ht
  | look behind neg r =>
    -- it reads nothing, whatever the expression inside reads
    intro s t ht
    rw [run] at ht
    split at ht <;> cases neg
    · cases ht
    · rw [List.mem_singleton.1 ht]
    · rw [List.mem_singleton.1 ht]
    · cases ht
  | rep greedy lo hi r hr =>
    intro s t ht
    exact loop_forward hr greedy lo hi _ _ _ s t ht

/-- A round for each character, each required repeat, and two more are enough. -/
theorem loop_enough {body : St → List St} (hb : Forward body) (greedy : Bool) (lo : Nat) (hi : Option Nat)
    {fuel n : Nat} {last : Option Nat} {s : St}
    (hf : lo - n + s.after.length + (if last = some s.after.length then 1 else 2) ≤ fuel) :
    loop greedy lo hi body (fuel + 1) n last s = loop greedy lo hi body fuel n last s := by
  induction fuel generalizing n last s with
  | zero => split at hf <;> omega
  | succ fuel ih =>
    have hround (m last') (h : ∀ t ∈ body s,
        lo - m + t.after.length + (if last' = some t.after.length then 1 else 2) ≤ fuel) :
        (body s).flatMap (loop greedy lo hi body (fuel + 1) m last') = (body s).flatMap (loop greedy lo hi body fuel m last') :=
      List.flatMap_congr fun t ht => ih (h t ht)
    rw [loop.eq_def _ _ _ _ (fuel + 1 + 1), loop.eq_def _ _ _ _ (fuel + 1)]
    dsimp only
    split
    · rw [hround]
      intro t ht
      have hle := hb s t ht
      split at hf <;> split <;> grind
    · by_cases hl : last = some s.after.length
      · simp [hl]
      · rw [if_neg hl] at hf
        rw [hround]
        intro t ht
        have hle := hb s t ht
        split <;> grind

/-- A repeat has the outcomes that any larger number of rounds gives. -/
theorem run_rep_enough (greedy : Bool) (lo : Nat) (hi : Option Nat) (r : Re) (s : St) {n : Nat}
    (hn : lo + s.after.length + 2 ≤ n) : run fl (.rep greedy lo hi r) s = loop greedy lo hi (run fl r) n 0 none s := by
  induction n, hn using Nat.le_induction with
  | base => rfl
  | succ n hn ih =>
    rw [ih, loop_enough (run_forward fl r)]
    simpa using hn

/-! ## Substitution -/

/-- A match can start only where `z` does. -/
def StartsWith (m : St → List St) (z : List Char) : Prop := ∀ b a, ¬ z <+: a → m ⟨b, a, []⟩ = []

theorem startsWith_lits (h : fl.ignorecase = false) (z : List Char) (rs : List Re) :
    StartsWith (run fl (catAll (z.map .lit ++ rs))) z := by
  intro b a hz
  exact run_lits_append_none fl h hz b [] rs

/-- A step for each character and one for the end are enough. -/
theorem subFrom_enough (m : St → List St) (repl : List Char) {n : Nat} {a : List Char} (hn : a.length + 1 ≤ n)
    (b : List Char) (adj : Bool) : subFrom m repl (n + 1) b a adj = subFrom m repl n b a adj := by
  induction n generalizing a b adj with
  | zero => exact absurd hn (Nat.not_succ_le_zero _)
  | succ n ih =>
    rw [subFrom.eq_def m repl (n + 1 + 1), subFrom.eq_def m repl (n + 1)]
    cases a with
    | nil =>
      dsimp only [List.length_nil]
      split
      · rfl
      · rw [if_neg (Nat.not_lt_zero _), if_neg (Nat.not_lt_zero _)]
    | cons c a =>
      dsimp only
      rw [List.length_cons] at hn
      rw [ih (Nat.le_of_succ_le_succ hn)]
      split
      · rfl
      · next t ts _ =>
        by_cases ht : t.after.length < (c :: a).length
        · rw [if_pos ht, if_pos ht, ih (Nat.le_trans ht (Nat.le_of_succ_le_succ hn))]
        · rw [if_neg ht, if_neg ht]

theorem sub_enough (r : Re) (repl : List Char) {text : List Char} {n : Nat} (hn : text.length + 1 ≤ n) :
    sub fl r repl text = subFrom (run fl r) repl n [] text false := by
  induction n, hn using Nat.le_induction with
  | base => rfl
  | succ n hn ih => rw [ih, subFrom_enough _ _ hn]

/-- A character at which nothing matches is copied. -/
theorem subFrom_skip {m : St → List St} (repl : List Char) {c : Char} {a b : List Char} (h : m ⟨b, c :: a, []⟩ = [])
    (n : Nat) (adj : Bool) : subFrom m repl (n + 1) b (c :: a) adj = c :: subFrom m repl n (c :: b) a false := by
  rw [subFrom, h]

/-- Nothing matches at any place of a text that `t` follows. -/
def Silent (m : St → List St) : List Char → List Char → Prop
  | [], _ => True
  | c :: s, t => (∀ b, m ⟨b, c :: (s ++ t), []⟩ = []) ∧ Silent m s t

theorem StartsWith.silent {m : St → List St} {z : List Char} (hm : StartsWith m z) {x y : List Char}
    (h : NoStart z x y) : Silent m x y := by
  induction x with
  | nil => trivial
  | cons c x ih => exact ⟨fun b => hm _ _ h.1, ih h.2⟩

/-- A stretch in which no match starts is copied. -/
theorem subFrom_copy {m : St → List St} (repl : List Char) {x y : List Char} (h : Silent m x y) (n : Nat) (b : List Char)
    (adj : Bool) :
    ∃ adj', subFrom m repl (x.length + n) b (x ++ y) adj = x ++ subFrom m repl n (x.reverse ++ b) y adj' := by
  induction x generalizing b adj with
  | nil => exact ⟨adj, by simp⟩
  | cons c x ih =>
    obtain ⟨adj', hx⟩ := ih h.2 (c :: b) false
    refine ⟨adj', ?_⟩
    rw [List.length_cons, Nat.add_right_comm, List.cons_append, subFrom_skip repl (h.1 b), hx]
    simp

/-- A match is replaced, and the search goes on after it. -/
theorem subFrom_match {m : St → List St} (repl x y b : List Char) (adj : Bool) (hx : x ≠ []) (n : Nat)
    {k ts} (h : m ⟨b, x ++ y, []⟩ = ⟨x.reverse ++ b, y, k⟩ :: ts) :
    subFrom m repl (n + 1) b (x ++ y) adj = repl ++ subFrom m repl n (x.reverse ++ b) y true := by
  have hlt : y.length < (x ++ y).length := by
    have := List.length_pos_iff.2 hx
    simp only [List.length_append]
    omega
  rw [subFrom.eq_def]
  simp only [h, hlt, if_true]

/-- At the end of the text nothing is left to copy. -/
theorem subFrom_end {m : St → List St} (repl : List Char) {b : List Char} (hm : m ⟨b, [], []⟩ = []) (n : Nat) (adj : Bool) :
    subFrom m repl (n + 1) b [] adj = [] := by
  rw [subFrom, hm]

theorem StartsWith.at_end {m : St → List St} {z : List Char} (hm : StartsWith m z) (hz : z ≠ []) (b : List Char) :
    m ⟨b, [], []⟩ = [] := hm b [] (by simpa using hz)

/-- A text in which nothing matches is left as it is. -/
theorem sub_silent {r : Re} (repl : List Char) {s : List Char} (h : Silent (run fl r) s [])
    (hend : ∀ b, run fl r ⟨b, [], []⟩ = []) : sub fl r repl s = s := by
  obtain ⟨adj, hcopy⟩ := subFrom_copy repl h 1 [] false
  rw [List.append_nil] at hcopy
  rw [sub, hcopy, subFrom_end repl (hend _), List.append_nil]

/-- A text with one match has it replaced. -/
theorem sub_once {r : Re} (repl : List Char) {x z y : List Char} (hz : z ≠ []) (hx : Silent (run fl r) x (z ++ y))
    (hmatch : ∀ b, ∃ k ts, run fl r ⟨b, z ++ y, []⟩ = ⟨z.reverse ++ b, y, k⟩ :: ts) (hy : Silent (run fl r) y [])
    (hend : ∀ b, run fl r ⟨b, [], []⟩ = []) : sub fl r repl (x ++ (z ++ y)) = x ++ (repl ++ y) := by
  obtain ⟨k, ts, hts⟩ := hmatch (x.reverse ++ [])
  have hsteps : (x ++ (z ++ y)).length + 1 ≤ x.length + (y.length + (z.length + 1) + 1) := by
    simp only [List.length_append]
    omega
  obtain ⟨adj, hcopy⟩ := subFrom_copy repl hx (y.length + (z.length + 1) + 1) [] false
  obtain ⟨adj', hrest⟩ := subFrom_copy repl hy (z.length + 1) (z.reverse ++ (x.reverse ++ [])) true
  rw [List.append_nil y] at hrest
  rw [sub_enough fl r repl hsteps, hcopy, subFrom_match repl _ _ _ _ hz _ hts, hrest, subFrom_end repl (hend _),
    List.append_nil]

theorem startsWith_text (h : fl.ignorecase = false) (z : List Char) : StartsWith (run fl (lits z)) z := by
  have hm := startsWith_lits fl h z []
  rwa [List.append_nil] at hm

theorem sub_lits_none (h : fl.ignorecase = false) {z repl s : List Char} (hz : z ≠ []) (hs : NoStart z s []) :
    sub fl (lits z) repl s = s :=
  sub_silent fl repl ((startsWith_text fl h z).silent hs) ((startsWith_text fl h z).at_end hz)

theorem sub_lits_once (h : fl.ignorecase = false) {z repl x y : List Char} (hz : z ≠ []) (hx : NoStart z x (z ++ y))
    (hy : NoStart z y []) : sub fl (lits z) repl (x ++ (z ++ y)) = x ++ (repl ++ y) := by
  have hm := startsWith_text fl h z
  exact sub_once fl repl hz (hm.silent hx) (fun b => ⟨[], [], run_lits fl h z b y []⟩) (hm.silent hy) (hm.at_end hz)

end ProGuide.Lib.Regex
