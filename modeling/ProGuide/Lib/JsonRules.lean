import Mathlib.Algebra.Order.BigOperators.Group.List
import Mathlib.Algebra.Order.Group.Nat
import Mathlib.Data.List.Nodup
import Mathlib.Data.List.Perm.Subperm
import Mathlib.Data.List.TakeDrop
import ProGuide.Lib.Json
/-!
# Rules of the JSON reader

What the reader makes of strings that need no escape, and how much text a value
costs: every character a string cannot hold as it is costs an escape.
-/

namespace ProGuide.Lib.Json

/-! ## Reading what needs no escape -/

/-- A character that cannot stand for itself in a string. -/
def special (c : Nat) : Bool := c = quote || c = backslash || c < 32

/-- A text that stands for itself in a string. -/
def Plain (w : Units) : Prop := ∀ c ∈ w, special c = false

instance (w : Units) : Decidable (Plain w) := inferInstanceAs (Decidable (∀ c ∈ w, special c = false))

theorem scanString_plain {w : Units} (hw : Plain w) (r : Units) : scanString (w ++ quote :: r) = some (w, r) := by
  induction w with
  | nil =>
    rw [List.nil_append, scanString.eq_def]
    rfl
  | cons c w ih =>
    obtain ⟨hc, hw⟩ := List.forall_mem_cons.1 hw
    simp only [special, Bool.or_eq_false_iff, decide_eq_false_iff_not] at hc
    obtain ⟨⟨hq, hb⟩, h32⟩ := hc
    rw [List.cons_append, scanString.eq_def]
    simp only [hq, hb, h32, if_false, ih hw]
    rfl

theorem skipBlanks_cons {c : Nat} (hc : isBlank c = false) (s : Units) : skipBlanks (c :: s) = c :: s :=
  List.dropWhile_cons_of_neg (by simp [hc])

theorem dropPrefix_cons (c : Nat) (s : Units) : dropPrefix [c] (c :: s) = some s := by
  simp [dropPrefix]

theorem value_plain {w : Units} (hw : Plain w) (n : Nat) (r : Units) :
    value (n + 1) (quote :: (w ++ quote :: r)) = some (.str w, r) := by
  rw [value.eq_def]
  simp only [if_true, scanString_plain hw]
  rfl

/-- A member with a plain name and a plain string, followed by a comma. -/
theorem members_plain {k w : Units} (hk : Plain k) (hw : Plain w) (n : Nat) (r : Units) :
    members (n + 2) (quote :: (k ++ quote :: 58 :: 32 :: quote :: (w ++ quote :: 44 :: r))) =
      (members (n + 1) (skipBlanks r)).map fun p => ((k, .str w) :: p.1, p.2) := by
  have hcolon : skipBlanks (58 :: 32 :: quote :: (w ++ quote :: 44 :: r)) =
      58 :: 32 :: quote :: (w ++ quote :: 44 :: r) := skipBlanks_cons rfl _
  have hopen : skipBlanks (32 :: quote :: (w ++ quote :: 44 :: r)) = quote :: (w ++ quote :: 44 :: r) := rfl
  have hcomma : skipBlanks (44 :: r) = 44 :: r := skipBlanks_cons rfl _
  rw [members]
  simp only [dropPrefix_cons, Option.bind_eq_bind, Option.bind_some, scanString_plain hk, hcolon, hopen,
    value_plain hw, hcomma]
  cases members (n + 1) (skipBlanks r) <;> rfl

/-- The last member of an object. -/
theorem members_plain_last {k w : Units} (hk : Plain k) (hw : Plain w) (n : Nat) (r : Units) :
    members (n + 2) (quote :: (k ++ quote :: 58 :: 32 :: quote :: (w ++ quote :: 125 :: r))) =
      some ([(k, .str w)], r) := by
  have hcolon : skipBlanks (58 :: 32 :: quote :: (w ++ quote :: 125 :: r)) =
      58 :: 32 :: quote :: (w ++ quote :: 125 :: r) := skipBlanks_cons rfl _
  have hopen : skipBlanks (32 :: quote :: (w ++ quote :: 125 :: r)) = quote :: (w ++ quote :: 125 :: r) := rfl
  have hclose : skipBlanks (125 :: r) = 125 :: r := skipBlanks_cons rfl _
  rw [members]
  simp only [dropPrefix_cons, Option.bind_eq_bind, Option.bind_some, scanString_plain hk, hcolon, hopen,
    value_plain hw, hclose]
  rfl

/-! ## The cost of a value -/

/-- The characters of a text that are not blanks. -/
def weight (s : Units) : Nat := s.countP (!isBlank ·)

/-- The characters of a text that cannot stand for themselves in a string. -/
def escaped (w : Units) : Nat := w.countP special

@[simp] theorem weight_nil : weight [] = 0 := rfl

@[simp] theorem weight_cons (c : Nat) (s : Units) : weight (c :: s) = weight s + if isBlank c then 0 else 1 := by
  rw [weight, List.countP_cons, weight]
  cases isBlank c <;> rfl

theorem weight_solid {c : Nat} (hc : isBlank c = false) (s : Units) : weight (c :: s) = weight s + 1 := by
  rw [weight_cons, hc]
  rfl

theorem weight_le_append (s t : Units) : weight t ≤ weight (s ++ t) := by
  rw [weight, weight, List.countP_append]
  omega

@[simp] theorem weight_append (s t : Units) : weight (s ++ t) = weight s + weight t := List.countP_append

@[simp] theorem weight_skipBlanks (s : Units) : weight (skipBlanks s) = weight s := by
  induction s with
  | nil => rfl
  | cons c s ih =>
    cases hc : isBlank c
    · simp [skipBlanks, hc]
    · simpa [skipBlanks, hc] using ih

@[simp] theorem escaped_nil : escaped [] = 0 := rfl

theorem escaped_cons (c : Nat) (w : Units) : escaped (c :: w) = escaped w + if special c then 1 else 0 :=
  List.countP_cons

theorem mem_of_lookup {α β : Type} [BEq α] [LawfulBEq α] {k : α} {v : β} {l : List (α × β)}
    (h : l.lookup k = some v) : (k, v) ∈ l := by
  induction l with
  | nil => cases h
  | cons p l ih =>
    rw [List.lookup_cons] at h
    split at h
    · next hk =>
      obtain rfl := eq_of_beq hk
      obtain rfl := Option.some.inj h
      exact List.mem_cons_self
    · exact List.mem_cons_of_mem _ (ih h)

theorem escape_not_blank {e u : Nat} (h : escapes.lookup e = some u) : isBlank e = false := by
  have hall : ∀ p ∈ escapes, isBlank p.1 = false := by decide
  exact hall _ (mem_of_lookup h)

/-- A decoded character weighs one, and one more if it needed an escape. -/
theorem weight_escaped_cons (u : Nat) (w : Units) : weight (u :: w) + escaped (u :: w) ≤ weight w + escaped w + 2 := by
  rw [weight_cons, escaped_cons]
  split <;> split <;> omega

/-- A string costs its characters, one more for each that needs an escape, and
the closing quote. -/
theorem scanString_weight {s w r : Units} (h : scanString s = some (w, r)) :
    weight w + escaped w + 1 + weight r ≤ weight s := by
  induction s using scanString.induct generalizing w r with
  | case1 => cases h
  | case2 s =>
    rw [scanString.eq_def] at h
    simp only [if_true, Option.some.injEq, Prod.mk.injEq] at h
    obtain ⟨rfl, rfl⟩ := h
    have := weight_solid (c := quote) rfl s
    simp only [weight_nil, escaped_nil]
    omega
  | case3 a b c d s hne ih =>
    rw [scanString.eq_def] at h
    simp only [hne, if_true, if_false, Option.bind_eq_bind, Option.bind_eq_some_iff, Prod.exists] at h
    obtain ⟨u, -, w, r, hs, h⟩ := h
    obtain ⟨rfl, rfl⟩ := Prod.mk.inj (Option.some.inj h)
    have hb := weight_solid (c := backslash) rfl (117 :: a :: b :: c :: d :: s)
    have hu := weight_solid (c := 117) rfl (a :: b :: c :: d :: s)
    have hd := weight_le_append [a, b, c, d] s
    have hdec := weight_escaped_cons u w
    have := ih hs
    simp only [List.cons_append, List.nil_append] at hd
    omega
  | case4 e s hu hne ih =>
    rw [scanString.eq_def] at h
    simp only [hne, if_true, if_false, Option.bind_eq_bind, Option.bind_eq_some_iff, Prod.exists] at h
    obtain ⟨u, hu, w, r, hs, h⟩ := h
    obtain ⟨rfl, rfl⟩ := Prod.mk.inj (Option.some.inj h)
    have hb := weight_solid (c := backslash) rfl (e :: s)
    have he := weight_solid (escape_not_blank hu) s
    have hdec := weight_escaped_cons u w
    have := ih hs
    omega
  | case5 hne =>
    rw [scanString.eq_def] at h
    simp [hne] at h
  | case6 c s hq hb hc =>
    rw [scanString.eq_def] at h
    simp [hq, hb, hc] at h
  | case7 c s hq hb hc ih =>
    rw [scanString.eq_def] at h
    simp only [hq, hb, hc, if_false, Option.bind_eq_bind, Option.bind_eq_some_iff, Prod.exists] at h
    obtain ⟨w, r, hs, h⟩ := h
    obtain ⟨rfl, rfl⟩ := Prod.mk.inj (Option.some.inj h)
    have hplain : special c = false := by simp [special, hq, hb, hc]
    have := ih hs
    rw [weight_cons, weight_cons, escaped_cons, hplain]
    simp only [Bool.false_eq_true, if_false]
    omega

theorem weight_suffix {r s : Units} (h : r <:+ s) : weight r ≤ weight s := by
  obtain ⟨t, rfl⟩ := h
  exact weight_le_append t r

theorem digits_suffix (s : Units) : (digits s).2 <:+ s := by
  rw [digits, List.span_eq_takeWhile_dropWhile]
  exact List.dropWhile_suffix _

theorem fraction_suffix (s : Units) : (fraction s).2 <:+ s := by
  unfold fraction
  split
  · split
    · exact List.suffix_rfl
    · exact (digits_suffix _).trans (List.suffix_cons _ _)
  · exact List.suffix_rfl

theorem exponent_suffix (s : Units) : (exponent s).2 <:+ s := by
  unfold exponent
  split
  · next e r =>
    split
    next sign r' hsign =>
    have hr : r' <:+ r := by
      split at hsign <;> obtain ⟨-, rfl⟩ := Prod.mk.inj hsign
      · exact List.suffix_cons _ _
      · exact List.suffix_cons _ _
      · exact List.suffix_rfl
    split
    · exact (digits_suffix r').trans (hr.trans (List.suffix_cons _ _))
    · exact List.suffix_rfl
  · exact List.suffix_rfl

theorem number_suffix {s l r : Units} (h : number s = some (l, r)) : r <:+ s := by
  unfold number at h
  split at h
  next sign s' hsign =>
  have hs : s' <:+ s := by
    split at hsign <;> obtain ⟨-, rfl⟩ := Prod.mk.inj hsign
    · exact List.suffix_cons _ _
    · exact List.suffix_rfl
  simp only [Option.map_eq_some_iff, Prod.exists, Prod.mk.injEq] at h
  obtain ⟨ds, t, hwhole, -, rfl⟩ := h
  have ht : t <:+ s' := by
    split at hwhole
    · obtain ⟨-, rfl⟩ := Prod.mk.inj (Option.some.inj hwhole)
      exact List.suffix_cons _ _
    · split at hwhole
      · cases hwhole
      · have ht : (digits s').2 = t := congrArg Prod.snd (Option.some.inj hwhole)
        exact ht ▸ digits_suffix s'
  exact (exponent_suffix _).trans ((fraction_suffix t).trans (ht.trans hs))

/-- The cost of a value, as far as it is a string. -/
def cost : Value → Nat
  | .str w => weight w + escaped w + 2
  | _ => 0

/-- The cost of a member: its name in quotes, the colon, its value, and the comma
or brace after it. -/
def memberCost (m : Units × Value) : Nat := weight m.1 + escaped m.1 + cost m.2 + 4

def membersCost (ms : List (Units × Value)) : Nat := (ms.map memberCost).sum

/-- Reading `v` from `s` and leaving `r` has used up the cost of `v`. -/
def Paid (s : Units) (v : Value) (r : Units) : Prop :=
  cost v + weight r ≤ weight s ∧ ∀ ms, v = .obj ms → membersCost ms + 1 + weight r ≤ weight s

theorem atom_paid {s r : Units} {v : Value} (h : atom s = some (v, r)) : Paid s v r := by
  unfold atom at h
  split at h
  · next w v' hfind =>
    obtain ⟨rfl, rfl⟩ := Prod.mk.inj (Option.some.inj h)
    have hmem := List.mem_of_find?_eq_some hfind
    have hr := weight_suffix (List.drop_suffix w.length s)
    simp only [literals, List.mem_cons, Prod.mk.injEq, List.not_mem_nil, or_false] at hmem
    rcases hmem with ⟨-, rfl⟩ | ⟨-, rfl⟩ | ⟨-, rfl⟩ | ⟨-, rfl⟩ | ⟨-, rfl⟩ | ⟨-, rfl⟩ <;> simpa [Paid, cost] using hr
  · simp only [Option.map_eq_some_iff, Prod.exists, Prod.mk.injEq] at h
    obtain ⟨l, t, hn, rfl, rfl⟩ := h
    simpa [Paid, cost] using weight_suffix (number_suffix hn)

theorem dropPrefix_one {c : Nat} {s r : Units} (h : dropPrefix [c] s = some r) : s = c :: r := by
  unfold dropPrefix at h
  split at h
  · next hp =>
    obtain ⟨t, rfl⟩ := hp
    obtain rfl := Option.some.inj h
    rfl
  · cases h

theorem membersCost_cons (m : Units × Value) (ms : List (Units × Value)) :
    membersCost (m :: ms) = memberCost m + membersCost ms := List.sum_cons

/-- A bracket or comma found behind blanks weighs one. -/
theorem weight_of_skipBlanks {c : Nat} {s r : Units} (hc : isBlank c = false) (h : skipBlanks s = c :: r) :
    weight s = weight r + 1 := by
  rw [← weight_skipBlanks, h, weight_solid hc]

/-! ## The readers pay -/

def ValuePaid (n : Nat) : Prop := ∀ s v r, value n s = some (v, r) → Paid s v r

def MembersPaid (n : Nat) : Prop := ∀ s ms r, members n s = some (ms, r) → membersCost ms + weight r ≤ weight s

def ElementsPaid (n : Nat) : Prop := ∀ s vs r, elements n s = some (vs, r) → weight r ≤ weight s

theorem value_paid_succ {n : Nat} (hmembers : MembersPaid n) (helements : ElementsPaid n) : ValuePaid (n + 1) := by
  intro s v r h
  rw [value.eq_def] at h
  simp only at h
  split at h
  · cases h
  · next c t =>
    split at h
    · next hq =>
      subst hq
      simp only [Option.bind_eq_bind, Option.bind_eq_some_iff, Prod.exists] at h
      obtain ⟨w, t', hs, h⟩ := h
      obtain ⟨rfl, rfl⟩ := Prod.mk.inj (Option.some.inj h)
      have hw := scanString_weight hs
      have hopen := weight_solid (c := quote) rfl t
      refine ⟨?_, fun ms hv => by cases hv⟩
      simp only [cost]
      omega
    · split at h
      · next hq hc =>
        subst hc
        have hopen := weight_solid (c := 123) rfl t
        split at h
        · next t' hskip =>
          obtain ⟨rfl, rfl⟩ := Prod.mk.inj (Option.some.inj h)
          have hclose := weight_of_skipBlanks rfl hskip
          refine ⟨by simp only [cost]; omega, fun ms hv => ?_⟩
          obtain rfl := Value.obj.inj hv
          simp only [membersCost, List.map_nil, List.sum_nil]
          omega
        · simp only [Option.bind_eq_bind, Option.bind_eq_some_iff, Prod.exists] at h
          obtain ⟨ms, t', hm, h⟩ := h
          obtain ⟨rfl, rfl⟩ := Prod.mk.inj (Option.some.inj h)
          have hms := hmembers _ _ _ hm
          rw [weight_skipBlanks] at hms
          refine ⟨by simp only [cost]; omega, fun ms' hv => ?_⟩
          obtain rfl := Value.obj.inj hv
          omega
      · split at h
        · next hc =>
          subst hc
          have hopen := weight_solid (c := 91) rfl t
          split at h
          · next t' hskip =>
            obtain ⟨rfl, rfl⟩ := Prod.mk.inj (Option.some.inj h)
            have hclose := weight_of_skipBlanks rfl hskip
            exact ⟨by simp only [cost]; omega, fun ms hv => by cases hv⟩
          · simp only [Option.bind_eq_bind, Option.bind_eq_some_iff, Prod.exists] at h
            obtain ⟨vs, t', he, h⟩ := h
            obtain ⟨rfl, rfl⟩ := Prod.mk.inj (Option.some.inj h)
            have hvs := helements _ _ _ he
            rw [weight_skipBlanks] at hvs
            exact ⟨by simp only [cost]; omega, fun ms hv => by cases hv⟩
        · exact atom_paid h

theorem members_paid_succ {n : Nat} (hvalue : ValuePaid n) (hmembers : MembersPaid n) : MembersPaid (n + 1) := by
  intro s ms r h
  rw [members] at h
  simp only [Option.bind_eq_bind, Option.bind_eq_some_iff, Prod.exists] at h
  obtain ⟨s1, h1, k, s2, h2, s3, h3, v, s4, h4, h⟩ := h
  have hopen := weight_solid (c := quote) rfl s1
  have hkey := scanString_weight h2
  have hcolon := weight_of_skipBlanks rfl (dropPrefix_one h3)
  have hval := (hvalue _ _ _ h4).1
  rw [weight_skipBlanks] at hval
  obtain rfl := dropPrefix_one h1
  split at h
  · next hskip =>
    obtain ⟨rfl, rfl⟩ := Prod.mk.inj (Option.some.inj h)
    have hclose := weight_of_skipBlanks rfl hskip
    simp only [membersCost, List.map_cons, List.map_nil, List.sum_cons, List.sum_nil, memberCost]
    omega
  · next hskip =>
    simp only [Option.bind_eq_some_iff, Prod.exists] at h
    obtain ⟨ms', t', hm, h⟩ := h
    obtain ⟨rfl, rfl⟩ := Prod.mk.inj (Option.some.inj h)
    have hcomma := weight_of_skipBlanks rfl hskip
    have hms := hmembers _ _ _ hm
    rw [weight_skipBlanks] at hms
    rw [membersCost_cons]
    simp only [memberCost]
    omega
  · cases h

theorem elements_paid_succ {n : Nat} (hvalue : ValuePaid n) (helements : ElementsPaid n) : ElementsPaid (n + 1) := by
  intro s vs r h
  rw [elements] at h
  simp only [Option.bind_eq_bind, Option.bind_eq_some_iff, Prod.exists] at h
  obtain ⟨v, s1, h1, h⟩ := h
  have hval := (hvalue _ _ _ h1).1
  split at h
  · next hskip =>
    obtain ⟨rfl, rfl⟩ := Prod.mk.inj (Option.some.inj h)
    have hclose := weight_of_skipBlanks rfl hskip
    omega
  · next hskip =>
    simp only [Option.bind_eq_some_iff, Prod.exists] at h
    obtain ⟨vs', t', hm, h⟩ := h
    obtain ⟨rfl, rfl⟩ := Prod.mk.inj (Option.some.inj h)
    have hcomma := weight_of_skipBlanks rfl hskip
    have hvs := helements _ _ _ hm
    rw [weight_skipBlanks] at hvs
    omega
  · cases h

/-- Whatever is read has cost at least the characters that stand for it. -/
theorem reader_paid (n : Nat) : ValuePaid n ∧ MembersPaid n ∧ ElementsPaid n := by
  induction n with
  | zero =>
    refine ⟨?_, ?_, ?_⟩ <;> intro s v r h
    · rw [value] at h
      cases h
    · rw [members] at h
      cases h
    · rw [elements] at h
      cases h
  | succ n ih =>
    obtain ⟨hvalue, hmembers, helements⟩ := ih
    exact ⟨value_paid_succ hmembers helements, members_paid_succ hvalue hmembers, elements_paid_succ hvalue helements⟩

/-- An object read from a text has members that cost no more than the text. -/
theorem loads_paid {s : Units} {ms : List (Units × Value)} (h : loads s = some (.obj ms)) :
    membersCost ms + 1 ≤ weight s := by
  simp only [loads, Option.bind_eq_bind, Option.bind_eq_some_iff, Prod.exists] at h
  obtain ⟨v, r, hv, h⟩ := h
  split at h
  · obtain rfl := Option.some.inj h
    have hpaid := ((reader_paid _).1 _ _ _ hv).2 ms rfl
    rw [weight_skipBlanks] at hpaid
    omega
  · cases h

/-! ## Steps -/

/-- Two steps for each character that is not a blank are enough. -/
def ValueEnough (n : Nat) : Prop := ∀ s, 2 * weight s + 1 ≤ n → value (n + 1) s = value n s

def MembersEnough (n : Nat) : Prop := ∀ s, 2 * weight s + 2 ≤ n → members (n + 1) s = members n s

def ElementsEnough (n : Nat) : Prop := ∀ s, 2 * weight s + 2 ≤ n → elements (n + 1) s = elements n s

theorem value_enough_succ {n : Nat} (hmembers : MembersEnough n) (helements : ElementsEnough n) : ValueEnough (n + 1) := by
  intro s hn
  rw [value.eq_def (n + 1 + 1), value.eq_def (n + 1)]
  dsimp only
  split
  · rfl
  · next c t =>
    by_cases hq : c = quote
    · rw [if_pos hq, if_pos hq]
    · rw [if_neg hq, if_neg hq]
      by_cases hb : c = 123
      · subst hb
        rw [weight_solid rfl] at hn
        have hrest := hmembers (skipBlanks t) (by rw [weight_skipBlanks]; omega)
        rw [if_pos rfl, if_pos rfl]
        split
        · rfl
        · rw [hrest]
      · rw [if_neg hb, if_neg hb]
        by_cases hs : c = 91
        · subst hs
          rw [weight_solid rfl] at hn
          have hrest := helements (skipBlanks t) (by rw [weight_skipBlanks]; omega)
          rw [if_pos rfl, if_pos rfl]
          split
          · rfl
          · rw [hrest]
        · rw [if_neg hs, if_neg hs]

theorem members_enough_succ {n : Nat} (hvalue : ValueEnough n) (hmembers : MembersEnough n) : MembersEnough (n + 1) := by
  intro s hn
  rw [members.eq_def (n + 1 + 1), members.eq_def (n + 1)]
  simp only [Option.bind_eq_bind]
  refine Option.bind_congr fun s1 h1 => Option.bind_congr fun q h2 => Option.bind_congr fun s3 h3 => ?_
  obtain ⟨k, s2⟩ := q
  dsimp only at h3
  -- the quotes and the colon are paid for, so the value has steps enough
  have hopen := weight_solid (c := quote) rfl s1
  have hkey := scanString_weight h2
  have hcolon := weight_of_skipBlanks rfl (dropPrefix_one h3)
  rw [dropPrefix_one h1] at hn
  rw [hvalue (skipBlanks s3) (by rw [weight_skipBlanks]; omega)]
  refine Option.bind_congr fun p h4 => ?_
  obtain ⟨v, s4⟩ := p
  have hval := ((reader_paid n).1 _ _ _ h4).1
  rw [weight_skipBlanks] at hval
  dsimp only
  split
  · rfl
  · next t ht =>
    have hcomma := weight_of_skipBlanks rfl ht
    rw [hmembers (skipBlanks t) (by rw [weight_skipBlanks]; omega)]
  · rfl

theorem elements_enough_succ {n : Nat} (hvalue : ValueEnough n) (helements : ElementsEnough n) : ElementsEnough (n + 1) := by
  intro s hn
  rw [elements.eq_def (n + 1 + 1), elements.eq_def (n + 1)]
  simp only [Option.bind_eq_bind]
  rw [hvalue s (by omega)]
  refine Option.bind_congr fun p h1 => ?_
  obtain ⟨v, s1⟩ := p
  have hval := ((reader_paid n).1 _ _ _ h1).1
  dsimp only
  split
  · rfl
  · next t ht =>
    have hcomma := weight_of_skipBlanks rfl ht
    rw [helements (skipBlanks t) (by rw [weight_skipBlanks]; omega)]
  · rfl

theorem reader_enough (n : Nat) : ValueEnough n ∧ MembersEnough n ∧ ElementsEnough n := by
  induction n with
  | zero =>
    refine ⟨?_, ?_, ?_⟩ <;> intro s hn
    · exact absurd hn (Nat.not_succ_le_zero _)
    · exact absurd hn (Nat.not_succ_le_zero _)
    · exact absurd hn (Nat.not_succ_le_zero _)
  | succ n ih =>
    obtain ⟨hvalue, hmembers, helements⟩ := ih
    exact ⟨value_enough_succ hmembers helements, members_enough_succ hvalue hmembers, elements_enough_succ hvalue helements⟩

theorem value_enough {m n : Nat} {s : Units} (hn : 2 * weight s + 1 ≤ n) (hm : 2 * weight s + 1 ≤ m) : value m s = value n s := by
  have hfirst {k : Nat} (hk : 2 * weight s + 1 ≤ k) : value k s = value (2 * weight s + 1) s := by
    induction k, hk using Nat.le_induction with
    | base => rfl
    | succ k hk ih => rw [(reader_enough k).1 s hk, ih]
  rw [hfirst hm, hfirst hn]

/-- The steps of `loads` are enough: with any larger number it reads the same. -/
theorem loads_enough {n : Nat} {s : Units} (hn : 2 * s.length + 1 ≤ n) :
    loads s = (value n (skipBlanks s)).bind fun p => if skipBlanks p.2 = [] then some p.1 else none := by
  have hweight : weight (skipBlanks s) ≤ s.length := by
    rw [weight_skipBlanks]
    exact List.countP_le_length
  rw [loads, value_enough (n := n) (by omega) (by omega)]
  rfl

/-- Members looked up under different names cost no more than the object. -/
theorem membersCost_get {ms ps : List (Units × Value)} (hn : (ps.map Prod.fst).Nodup)
    (h : ∀ p ∈ ps, (Value.obj ms).get p.1 = some p.2) : membersCost ps ≤ membersCost ms := by
  have hsub : ps ⊆ ms := fun p hp => List.mem_reverse.1 (mem_of_lookup (h p hp))
  obtain ⟨l, hl, hsubl⟩ := List.subperm_of_subset (List.Nodup.of_map Prod.fst hn) hsub
  calc membersCost ps = membersCost l := ((hl.map memberCost).sum_eq).symm
    _ ≤ membersCost ms := (hsubl.map memberCost).sum_le_sum fun _ _ => Nat.zero_le _

end ProGuide.Lib.Json
