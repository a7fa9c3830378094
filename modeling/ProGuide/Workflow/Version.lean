import Mathlib.Data.Bool.Basic
import Mathlib.Data.Char
import Mathlib.Data.List.Lex
import Mathlib.Data.List.TakeWhile
import Mathlib.Data.Prod.Lex
import Mathlib.Data.Sum.Order
import ProGuide.Workflow.Files
/-!
# Version numbers

`Version` of `update.py`: reading a version, writing it back, and the order that
decides which of two is newer. Texts are ASCII.
-/
open ProGuide.Lib.Text

namespace ProGuide.Workflow

/-! ## The code -/

/-- A part of a dotted string: an `int` if it is all digits. -/
inductive Part where
  | num (n : Nat)
  | text (t : Str)
  deriving DecidableEq, Repr

/-- `str.isdigit`. -/
def isdigit (p : Str) : Bool := !p.isEmpty && p.all Char.isDigit

def part (p : Str) : Part := if isdigit p then .num (Nat.ofDigitChars 10 p 0) else .text p

def parseDottedString (s : Str) : List Part := (split ['.'] s).map part

structure Version where
  major : Part
  minor : Part
  patch : Part
  suffix : Str
  build : Str
  deriving DecidableEq, Repr

/-- The `ValueError`s of a version that cannot be read. -/
inductive VersionError where
  /-- `invalid version number: `. -/
  | invalid (vstr : Str)
  /-- `version number too long: `. -/
  | tooLong (vstr : Str)
  /-- `suffix must start with - : `. -/
  | suffix (suffix : Str)
  deriving DecidableEq, Repr

def isVersionChar (c : Char) : Bool := c.isDigit || c = '.'

/-- `match_version`, that is `([0-9][0-9\.]*)(.+)?` at the start. -/
def matchVersion (s : Str) : Option (Str × Str) :=
  if (s.head?.any Char.isDigit) then
    some (s.takeWhile isVersionChar, (s.dropWhile isVersionChar).takeWhile (· ≠ '\n'))
  else none

/-- The suffix without its `-`, and what follows the first `+`. -/
def parseSuffix (suffix : Str) : Except VersionError (Str × Str) :=
  let cutAt := (cut ['+'] suffix).getD (suffix, [])
  match cutAt.1 with
  | [] => .ok ([], cutAt.2)
  | '-' :: s => .ok (s, cutAt.2)
  | s => .error (.suffix s)

/-- The numbers that are missing are 0. -/
def parseNumbers (vstr : Str) : List Part → Except VersionError (Part × Part × Part)
  | [major] => .ok (major, .num 0, .num 0)
  | [major, minor] => .ok (major, minor, .num 0)
  | [major, minor, patch] => .ok (major, minor, patch)
  | _ => .error (.tooLong vstr)

/-- `Version(vstr)`. -/
def Version.parse (vstr : Str) : Except VersionError Version := do
  let m ← ((matchVersion (if vstr.head? = some 'v' then vstr.tail else vstr)).elim (.error (.invalid vstr)) .ok)
  let numbers ← parseNumbers vstr (parseDottedString m.1)
  let suffix ← parseSuffix m.2
  .ok ⟨numbers.1, numbers.2.1, numbers.2.2, suffix.1, suffix.2⟩

def Part.str : Part → Str
  | .num n => Nat.toDigits 10 n
  | .text t => t

/-- `str(version)`. -/
def Version.str (v : Version) : Str :=
  ['.'].intercalate [v.major.str, v.minor.str, v.patch.str] ++
    (if v.suffix = [] then [] else '-' :: v.suffix) ++ (if v.build = [] then [] else '+' :: v.build)

/-! ## Reading back what was written -/

/-- A part that a version can have: a number, or nothing between two dots. -/
def Part.Plain (p : Part) : Prop := (∃ n, p = .num n) ∨ p = .text []

/-- What a version that was read holds. -/
structure Version.Read (v : Version) : Prop where
  major : ∃ n, v.major = .num n
  minor : v.minor.Plain
  patch : v.patch.Plain
  suffix : '+' ∉ v.suffix ∧ '\n' ∉ v.suffix
  build : '\n' ∉ v.build

theorem isdigit_toDigits (n : Nat) : isdigit (Nat.toDigits 10 n) = true := by
  rw [isdigit, Bool.and_eq_true, List.all_eq_true]
  exact ⟨by simp, fun c hc => Nat.isDigit_of_mem_toDigits (by decide) (by decide) hc⟩

/-- A plain part is read back from its text, which has digits only. -/
theorem part_str {p : Part} (h : p.Plain) : part p.str = p := by
  rcases h with ⟨n, rfl⟩ | rfl
  · rw [Part.str, part, if_pos (isdigit_toDigits n), Nat.ofDigitChars_ten_toDigits]
  · rfl

theorem digit_of_mem_str {p : Part} (h : p.Plain) {c : Char} (hc : c ∈ p.str) : c.isDigit = true := by
  rcases h with ⟨n, rfl⟩ | rfl
  · exact Nat.isDigit_of_mem_toDigits (by decide) (by decide) hc
  · cases hc

theorem plain_part {p : Str} (h : ∀ c ∈ p, c.isDigit = true) : (part p).Plain := by
  unfold part
  split
  · exact .inl ⟨_, rfl⟩
  · rename_i hd
    rcases p with _ | ⟨c, p⟩
    · exact .inr rfl
    · exact absurd (by simpa [isdigit] using h) hd

/-- The parts of a text of digits and dots are plain, and the first is a number if
the text begins with a digit. -/
theorem plain_parseDottedString {s : Str} (h : ∀ c ∈ s, isVersionChar c = true) : ∀ p ∈ parseDottedString s, p.Plain := by
  intro p hp
  obtain ⟨t, ht, rfl⟩ := List.mem_map.1 hp
  refine plain_part fun c hc => ?_
  have hcs : c ∈ s := by
    rw [← intercalate_split ['.'] s]
    exact mem_intercalate ht hc
  have hdot : c ≠ '.' := by
    rintro rfl
    exact split_free (by simp) t ht ((List.singleton_infix_iff _ _).2 hc)
  simpa [isVersionChar, hdot] using h c hcs

theorem num_parseDottedString {s : Str} {p : Part} {ps : List Part} (hs : s.head?.any Char.isDigit = true)
    (h : parseDottedString s = p :: ps) (hp : p.Plain) : ∃ n, p = .num n := by
  rcases hp with hn | rfl
  · exact hn
  · obtain ⟨t, ts, hts, ht, -⟩ := List.map_eq_cons_iff.1 h
    -- an empty first piece leaves a text that is empty or begins with a dot
    obtain rfl : t = [] := by
      unfold part at ht
      split at ht
      · cases ht
      · exact Part.text.inj ht
    have hjoin := intercalate_split ['.'] s
    rw [hts] at hjoin
    rcases ts with _ | ⟨q, qs⟩
    · rw [List.intercalate_singleton] at hjoin
      rw [← hjoin] at hs
      cases hs
    · rw [List.intercalate_cons_cons] at hjoin
      rw [← hjoin, List.nil_append] at hs
      cases hs

theorem parseSuffix_read {s a b : Str} (hs : '\n' ∉ s) (h : parseSuffix s = .ok (a, b)) :
    ('+' ∉ a ∧ '\n' ∉ a) ∧ '\n' ∉ b := by
  unfold parseSuffix at h
  -- what stands before the first `+`, and after it
  have hcut : '+' ∉ ((cut ['+'] s).getD (s, [])).1 ∧ '\n' ∉ ((cut ['+'] s).getD (s, [])).1 ∧
      '\n' ∉ ((cut ['+'] s).getD (s, [])).2 := by
    cases hc : cut ['+'] s with
    | none => exact ⟨fun h => cut_eq_none.1 hc ((List.singleton_infix_iff _ _).2 h), hs, by simp⟩
    | some p =>
      have happ := cut_eq_append (a := p.1) (b := p.2) hc
      rw [happ] at hs
      simp only [List.mem_append, not_or] at hs
      have hfree := cut_fst_free (by simp) (a := p.1) (b := p.2) hc
      exact ⟨fun h => hfree ((List.singleton_infix_iff _ _).2 h), hs.1, hs.2.2⟩
  obtain ⟨hplus, hnl, hnl'⟩ := hcut
  simp only at h
  split at h
  · obtain ⟨rfl, rfl⟩ := Prod.mk.inj (Except.ok.inj h)
    exact ⟨⟨by simp, by simp⟩, hnl'⟩
  · rename_i t ht
    obtain ⟨rfl, rfl⟩ := Prod.mk.inj (Except.ok.inj h)
    rw [ht] at hplus hnl
    exact ⟨⟨fun h => hplus (List.mem_cons_of_mem _ h), fun h => hnl (List.mem_cons_of_mem _ h)⟩, hnl'⟩
  · cases h

/-- The text a version is matched against. -/
def unprefixed (vstr : Str) : Str := if vstr.head? = some 'v' then vstr.tail else vstr

theorem parse_eq_ok_iff {t : Str} {v : Version} : Version.parse t = .ok v ↔
    ∃ a b, matchVersion (unprefixed t) = some (a, b) ∧
      parseNumbers t (parseDottedString a) = .ok (v.major, v.minor, v.patch) ∧ parseSuffix b = .ok (v.suffix, v.build) := by
  unfold Version.parse unprefixed
  cases matchVersion (if t.head? = some 'v' then t.tail else t) with
  | none => simp [bind, Except.bind]
  | some m =>
    obtain ⟨a, b⟩ := m
    cases hn : parseNumbers t (parseDottedString a) with
    | error e => simp [bind, Except.bind, hn]
    | ok numbers =>
      cases hs : parseSuffix b with
      | error e => simp [bind, Except.bind, hn, hs]
      | ok suffix =>
        obtain ⟨M, n, p⟩ := numbers
        obtain ⟨x, u⟩ := suffix
        cases v
        simp [bind, Except.bind, hn, hs, and_assoc]

theorem matchVersion_eq_some {s a b : Str} (h : matchVersion s = some (a, b)) :
    (∀ c ∈ a, isVersionChar c = true) ∧ a.head?.any Char.isDigit = true ∧ '\n' ∉ b := by
  unfold matchVersion at h
  split at h
  · rename_i hd
    obtain ⟨rfl, rfl⟩ := Prod.mk.inj (Option.some.inj h)
    refine ⟨fun c hc => List.mem_takeWhile_imp hc, ?_, fun hnl => by simpa using List.mem_takeWhile_imp hnl⟩
    rcases s with _ | ⟨c, s⟩
    · cases hd
    · have hc : isVersionChar c = true := by
        rw [isVersionChar, Bool.or_eq_true]
        exact .inl (by simpa using hd)
      rw [List.takeWhile_cons_of_pos hc]
      exact hd
  · cases h

/-- What every version that was read holds. -/
theorem parse_read {t : Str} {v : Version} (h : Version.parse t = .ok v) : v.Read := by
  obtain ⟨a, b, hm, hn, hs⟩ := parse_eq_ok_iff.1 h
  obtain ⟨hchars, hhead, hnl⟩ := matchVersion_eq_some hm
  obtain ⟨hsuf, hbuild⟩ := parseSuffix_read hnl hs
  have hplain := plain_parseDottedString hchars
  have hzero : (Part.num 0).Plain := .inl ⟨0, rfl⟩
  unfold parseNumbers at hn
  split at hn
  case h_1 major hparts =>
    simp only [Except.ok.injEq, Prod.mk.injEq] at hn
    obtain ⟨rfl, hminor, hpatch⟩ := hn
    exact ⟨num_parseDottedString hhead hparts (hplain _ (by simp [hparts])), hminor ▸ hzero, hpatch ▸ hzero, hsuf, hbuild⟩
  case h_2 major minor hparts =>
    simp only [Except.ok.injEq, Prod.mk.injEq] at hn
    obtain ⟨rfl, rfl, hpatch⟩ := hn
    exact ⟨num_parseDottedString hhead hparts (hplain _ (by simp [hparts])), hplain _ (by simp [hparts]), hpatch ▸ hzero,
      hsuf, hbuild⟩
  case h_3 major minor patch hparts =>
    simp only [Except.ok.injEq, Prod.mk.injEq] at hn
    obtain ⟨rfl, rfl, rfl⟩ := hn
    exact ⟨num_parseDottedString hhead hparts (hplain _ (by simp [hparts])), hplain _ (by simp [hparts]),
      hplain _ (by simp [hparts]), hsuf, hbuild⟩
  case h_4 => cases hn

/-- The numbers of a version as text. -/
def Version.numbersText (v : Version) : Str := ['.'].intercalate [v.major.str, v.minor.str, v.patch.str]

/-- The rest of a version as text. -/
def Version.suffixText (v : Version) : Str :=
  (if v.suffix = [] then [] else '-' :: v.suffix) ++ (if v.build = [] then [] else '+' :: v.build)

theorem str_eq (v : Version) : v.str = v.numbersText ++ v.suffixText := by
  rw [Version.str, Version.numbersText, Version.suffixText, List.append_assoc]

theorem parseDottedString_numbersText {v : Version} (h : v.Read) :
    parseDottedString v.numbersText = [v.major, v.minor, v.patch] := by
  have hmajor : v.major.Plain := .inl h.major
  have hfree : ∀ p : Part, p.Plain → ¬ ['.'] <:+: p.str := fun p hp hdot =>
    absurd (digit_of_mem_str hp ((List.singleton_infix_iff _ _).1 hdot)) (by decide)
  rw [parseDottedString, Version.numbersText, split_join (by simp) (unbordered_cons (by simp)) _ (by simp)]
  · simp [part_str hmajor, part_str h.minor, part_str h.patch]
  · intro p hp
    simp only [List.mem_cons, List.not_mem_nil, or_false] at hp
    rcases hp with rfl | rfl | rfl
    · exact hfree _ hmajor
    · exact hfree _ h.minor
    · exact hfree _ h.patch

theorem isVersionChar_numbersText {v : Version} (h : v.Read) : ∀ c ∈ v.numbersText, isVersionChar c = true := by
  have hpart : ∀ p : Part, p.Plain → ∀ c ∈ p.str, isVersionChar c = true := fun p hp c hc => by
    rw [isVersionChar, digit_of_mem_str hp hc]
    rfl
  have hmajor : v.major.Plain := .inl h.major
  intro c hc
  simp only [Version.numbersText, List.intercalate_cons_cons, List.intercalate_singleton, List.mem_append,
    List.mem_singleton] at hc
  rcases hc with (hc | rfl) | (hc | rfl) | hc
  · exact hpart _ hmajor c hc
  · rfl
  · exact hpart _ h.minor c hc
  · rfl
  · exact hpart _ h.patch c hc

/-- The text begins with a digit of the first number. -/
theorem head_str {v : Version} (h : v.Read) : ∃ c, v.str.head? = some c ∧ c.isDigit = true := by
  obtain ⟨n, hn⟩ := h.major
  obtain ⟨c, t, ht⟩ := List.exists_cons_of_ne_nil (Nat.toDigits_ne_nil (n := n) (b := 10))
  have hc : c ∈ Nat.toDigits 10 n := by
    rw [ht]
    exact List.mem_cons_self
  refine ⟨c, ?_, Nat.isDigit_of_mem_toDigits (by decide) (by decide) hc⟩
  rw [str_eq, Version.numbersText, List.intercalate_cons_cons, hn, Part.str, ht]
  rfl

theorem parseSuffix_suffixText {v : Version} (h : v.Read) : parseSuffix v.suffixText = .ok (v.suffix, v.build) := by
  have hfree : ¬ ['+'] <:+: (if v.suffix = [] then [] else '-' :: v.suffix : Str) := by
    rw [List.singleton_infix_iff]
    split
    · simp
    · simp [h.suffix.1]
  have hcut : ((cut ['+'] v.suffixText).getD (v.suffixText, [])) =
      ((if v.suffix = [] then [] else '-' :: v.suffix), v.build) := by
    unfold Version.suffixText
    by_cases hb : v.build = []
    · rw [if_pos hb, List.append_nil, cut_eq_none.2 hfree, hb]
      rfl
    · rw [if_neg hb, show '+' :: v.build = ['+'] ++ v.build from rfl,
        cut_append (by simp) (unbordered_cons (by simp)) hfree]
      rfl
  rw [parseSuffix, hcut]
  by_cases hs : v.suffix = []
  · simp [hs]
  · simp [hs]

/-- A version that was read is read back from its text as it is. -/
theorem parse_str_read {v : Version} (h : v.Read) : Version.parse v.str = .ok v := by
  obtain ⟨c, hstr, hc⟩ := head_str h
  have hv : unprefixed v.str = v.str := by
    rw [unprefixed, if_neg]
    rw [hstr]
    rintro heq
    obtain rfl := Option.some.inj heq
    exact absurd hc (by decide)
  -- the numbers end where the suffix or the build begins
  have hstop : v.suffixText.takeWhile isVersionChar = [] ∧ v.suffixText.dropWhile isVersionChar = v.suffixText := by
    unfold Version.suffixText
    split
    · split
      · exact ⟨rfl, rfl⟩
      · exact ⟨rfl, rfl⟩
    · exact ⟨rfl, rfl⟩
  have hnl : v.suffixText.takeWhile (· ≠ '\n') = v.suffixText := by
    rw [List.takeWhile_eq_self_iff]
    intro c hc
    simp only [Version.suffixText, List.mem_append] at hc
    refine decide_eq_true fun heq => ?_
    subst heq
    rcases hc with hc | hc
    · split at hc
      · cases hc
      · exact h.suffix.2 (by simpa using hc)
    · split at hc
      · cases hc
      · exact h.build (by simpa using hc)
  have hmatch : matchVersion v.str = some (v.numbersText, v.suffixText) := by
    have hhead : v.str.head?.any Char.isDigit = true := by
      rw [hstr]
      exact hc
    rw [matchVersion, if_pos hhead, str_eq, List.takeWhile_append_of_pos (isVersionChar_numbersText h),
      List.dropWhile_append_of_pos (isVersionChar_numbersText h), hstop.1, hstop.2, hnl, List.append_nil]
  refine parse_eq_ok_iff.2 ⟨_, _, hv.symm ▸ hmatch, ?_, ?_⟩
  · rw [parseDottedString_numbersText h]
    rfl
  · exact parseSuffix_suffixText h

/-- Whatever text was read as a version, the version's own text is read as the same:
no number, suffix or build is lost or misplaced. -/
theorem version_roundTrips {t : Str} {v : Version} (h : Version.parse t = .ok v) : Version.parse v.str = .ok v :=
  parse_str_read (parse_read h)

theorem version_roundTrips_beta : Version.parse (Version.str ⟨.num 3, .num 1, .num 0, "beta.2".toList, "7".toList⟩) =
    .ok ⟨.num 3, .num 1, .num 0, "beta.2".toList, "7".toList⟩ :=
  version_roundTrips (t := "v3.1-beta.2+7".toList) (by decide +kernel)

/-! ## Which is newer -/

/-- Parts in Python's order: numbers come before texts. -/
def Part.key : Part → Nat ⊕ₗ Str
  | .num n => Sum.inlₗ n
  | .text t => Sum.inrₗ t

theorem Part.key_injective : Function.Injective Part.key := by
  intro p q h
  cases p <;> cases q <;> simp_all [Part.key, Sum.inlₗ, Sum.inrₗ]

instance : LinearOrder Part := LinearOrder.lift' Part.key Part.key_injective

namespace Version

/-- `tuple[:3]`. -/
def numbers (v : Version) : List Part := [v.major, v.minor, v.patch]

/-- `__eq__`: the build does not count. -/
def eq (v o : Version) : Bool := v.numbers = o.numbers && v.suffix = o.suffix

/-- `__lt__`. -/
def lt (v o : Version) : Bool :=
  if v.numbers < o.numbers then true
  else if v.numbers = o.numbers then
    if v.suffix ≠ [] ∧ o.suffix = [] then true
    else if o.suffix ≠ [] ∧ v.suffix = [] then false
    else decide (parseDottedString v.suffix < parseDottedString o.suffix)
  else false

/-- What the order goes by: a version without a suffix comes after those with one. -/
def key (v : Version) : List Part ×ₗ (Bool ×ₗ List Part) :=
  toLex (v.numbers, toLex (v.suffix.isEmpty, parseDottedString v.suffix))

theorem lt_iff {v o : Version} : v.lt o = true ↔ v.key < o.key := by
  unfold lt key
  rw [Prod.Lex.toLex_lt_toLex]
  simp only
  by_cases hlt : v.numbers < o.numbers
  · simp [hlt]
  by_cases heq : v.numbers = o.numbers
  · rw [if_neg hlt, if_pos heq, Prod.Lex.toLex_lt_toLex]
    cases hv : v.suffix <;> cases ho : o.suffix <;> simp [heq]
  · simp [hlt, heq]

theorem eq_iff {v o : Version} : v.eq o = true ↔ v.numbers = o.numbers ∧ v.suffix = o.suffix := by simp [eq]

theorem key_of_eq {v o : Version} (h : v.eq o = true) : v.key = o.key := by
  obtain ⟨hn, hs⟩ := eq_iff.1 h
  rw [key, key, hn, hs]

theorem same_iff {v o : Version} : ¬ v.lt o = true ∧ ¬ o.lt v = true ↔ v.key = o.key := by
  rw [lt_iff, lt_iff, not_lt, not_lt, ← le_antisymm_iff, eq_comm]

/-- `<` on versions is a strict weak order: nothing is newer than itself, and what is
newer is newer than all that is older. Neither of two is newer exactly when they agree
in their numbers, in whether they have a suffix, and in its parts read as numbers where
they are, and then they are alike to every other version. -/
theorem version_order (u v o : Version) : ¬ v.lt v = true ∧ (u.lt v = true → v.lt o = true → u.lt o = true) ∧
    (¬ u.lt v = true ∧ ¬ v.lt u = true ↔ u.numbers = v.numbers ∧ u.suffix.isEmpty = v.suffix.isEmpty ∧
      parseDottedString u.suffix = parseDottedString v.suffix) ∧
    (¬ u.lt v = true ∧ ¬ v.lt u = true → u.lt o = v.lt o ∧ o.lt u = o.lt v) := by
  refine ⟨fun h => lt_irrefl _ (lt_iff.1 h), fun huv hvo => lt_iff.2 ((lt_iff.1 huv).trans (lt_iff.1 hvo)), ?_, fun h => ?_⟩
  · rw [same_iff]
    simp [key]
  · have hkey := same_iff.1 h
    exact ⟨by rw [Bool.eq_iff_iff, lt_iff, lt_iff, hkey], by rw [Bool.eq_iff_iff, lt_iff, lt_iff, hkey]⟩

/-- `1.0-01` and `1.0-1` differ, but neither is newer. -/
example : let v : Version := ⟨.num 1, .num 0, .num 0, "01".toList, []⟩
    let o : Version := ⟨.num 1, .num 0, .num 0, "1".toList, []⟩
    v.eq o = false ∧ v.lt o = false ∧ o.lt v = false := by decide +kernel

end Version

end ProGuide.Workflow
