import ProGuide.Lib.Rounding
/-!
# Time differences

`TimeStamp.php` of an Alfred workflow: how far a timestamp is from now, in days,
hours, minutes and seconds.
-/
open ProGuide.Lib

namespace ProGuide.Alfred

/-! ## The script -/

/-- What `/` rounds to. Between integers PHP rounds only what does not divide,
and the format keeps the rest. -/
abbrev Double := Rounding 53

/-- The queries the three branches are for: the word `now`, a text that equals
the text of its own integer value, and any other text. -/
inductive Query where
  | now
  | stamp (q : ℤ)
  | text (s : List Char)

/-- The four numbers of `当前时间差 $d 天 $h 小时 $m 分 $s 秒`. -/
structure Parts where
  d : ℤ
  h : ℤ
  m : ℤ
  s : ℤ
  deriving DecidableEq, Repr

/-- The numbers on the second line of the answer. -/
inductive Shown where
  | moment (t : ℤ)
  | parts (x : Parts)
  | seconds (n : ℤ)
  deriving DecidableEq, Repr

/-- The parts of `$cle`. `%` truncates toward zero and `floor` rounds down. -/
def difference (fl : Double) (cle : ℤ) : Parts where
  d := ⌊fl.div (fl.div cle 3600) 24⌋
  h := ⌊fl.div (cle.tmod (3600 * 24) : ℤ) 3600⌋
  m := ⌊fl.div ((cle.tmod (3600 * 24)).tmod 3600 : ℤ) 60⌋
  s := ⌊(((cle.tmod (3600 * 24)).tmod 60 : ℤ) : ℚ)⌋

/-- What is shown at the time `now`. A text that is no time counts as zero. -/
def getTimeStamp (fl : Double) (strtotime : List Char → Option ℤ) (now : ℤ) : Query → Shown
  | .now => .moment now
  | .stamp q => .parts (difference fl (q - now))
  | .text s => .seconds ((strtotime s).getD 0 - now)

/-! ## Splitting seconds -/

namespace Parts

/-- The parts are those of `n` seconds. -/
structure Splits (x : Parts) (n : ℤ) : Prop where
  sum : 86400 * x.d + 3600 * x.h + 60 * x.m + x.s = n
  hours : 0 ≤ x.h ∧ x.h < 24
  minutes : 0 ≤ x.m ∧ x.m < 60
  seconds : 0 ≤ x.s ∧ x.s < 60

/-- The parts of `n` seconds, with the days rounded down. -/
def ofSeconds (n : ℤ) : Parts := ⟨n / 86400, n % 86400 / 3600, n % 3600 / 60, n % 60⟩

theorem splits_ofSeconds (n : ℤ) : (ofSeconds n).Splits n := by
  constructor <;> dsimp only [ofSeconds] <;> omega

/-- There is one way to split a number of seconds. -/
theorem splits_iff {x : Parts} {n : ℤ} : x.Splits n ↔ x = ofSeconds n := by
  constructor
  · rintro ⟨hsum, hh, hm, hs⟩
    obtain ⟨d, h, m, s⟩ := x
    simp only [ofSeconds, mk.injEq] at *
    omega
  · rintro rfl
    exact splits_ofSeconds n

end Parts

/-! ## What the script shows -/

/-- A time whose differences the doubles hold. -/
structure Stamp where
  val : ℤ
  small : |val| < 2 ^ 50

theorem Stamp.sub_small (q now : Stamp) : |q.val - now.val| < 2 ^ 51 := by
  have hsub := abs_sub q.val now.val
  have hq := q.small
  have hnow := now.small
  linarith

theorem abs_tmod_lt (a : ℤ) {b : ℤ} (hb : 0 < b) : |a.tmod b| < b := by
  have hlt := Nat.mod_lt a.natAbs (Int.natAbs_pos.2 hb.ne')
  rw [Int.abs_eq_natAbs, Int.natAbs_tmod]
  omega

/-- In this range the doubles round nothing that is shown. -/
theorem difference_eq (fl : Double) {cle : ℤ} (h : |cle| < 2 ^ 51) : difference fl cle =
    ⟨cle / 86400, cle.tmod 86400 / 3600, (cle.tmod 86400).tmod 3600 / 60, (cle.tmod 86400).tmod 60⟩ := by
  have hd : ⌊fl.div (fl.div cle 3600) 24⌋ = cle / 86400 := by
    exact_mod_cast fl.floor_div_div (j := 3600) (k := 24) (by decide) (by decide) (by linarith)
  have hh : ⌊fl.div (cle.tmod 86400 : ℤ) 3600⌋ = cle.tmod 86400 / 3600 := by
    exact_mod_cast fl.floor_div (k := 3600) (by decide) ((abs_tmod_lt cle (by decide)).trans (by decide))
  have hm : ⌊fl.div ((cle.tmod 86400).tmod 3600 : ℤ) 60⌋ = (cle.tmod 86400).tmod 3600 / 60 := by
    exact_mod_cast fl.floor_div (k := 60) (by decide) ((abs_tmod_lt (cle.tmod 86400) (by decide)).trans (by decide))
  have hday : (3600 * 24 : ℤ) = 86400 := rfl
  simp only [difference, hday, hd, hh, hm, Int.floor_intCast]

/-- The remainder is counted up from midnight when the difference is not before
it, or a whole number of days. -/
theorem difference_splits (fl : Double) {cle : ℤ} (h : |cle| < 2 ^ 51) (hcle : 0 ≤ cle ∨ 86400 ∣ cle) :
    (difference fl cle).Splits cle := by
  have hday : cle.tmod 86400 = cle % 86400 := by
    rw [Int.tmod_eq_emod, if_pos hcle]
    exact sub_zero _
  have hnonneg : 0 ≤ cle % 86400 := Int.emod_nonneg cle (by decide)
  rw [Parts.splits_iff, difference_eq fl h, hday, Int.tmod_eq_emod_of_nonneg hnonneg, Int.tmod_eq_emod_of_nonneg hnonneg,
    Parts.ofSeconds, Parts.mk.injEq]
  omega

/-- Else it is negative, and so are the hours. -/
theorem difference_hours_neg (fl : Double) {cle : ℤ} (h : |cle| < 2 ^ 51) (hcle : ¬ (0 ≤ cle ∨ 86400 ∣ cle)) :
    (difference fl cle).h < 0 := by
  have hday : cle.tmod 86400 = cle % 86400 - 86400 := by
    rw [Int.tmod_eq_emod, if_neg hcle]
    rfl
  have hlt : cle % 86400 < 86400 := Int.emod_lt_of_pos cle (by decide)
  rw [difference_eq fl h, hday]
  dsimp only
  omega

/-- The parts shown for a timestamp are those of its difference to now exactly
when it is not in the past, or whole days away. -/
theorem shown_splits_iff (fl : Double) (strtotime : List Char → Option ℤ) (q now : Stamp) :
    (∃ x, getTimeStamp fl strtotime now.val (.stamp q.val) = .parts x ∧ x.Splits (q.val - now.val)) ↔
      now.val ≤ q.val ∨ 86400 ∣ q.val - now.val := by
  have hsmall := q.sub_small now
  rw [← sub_nonneg]
  constructor
  · rintro ⟨x, hx, hsplits⟩
    obtain rfl : difference fl (q.val - now.val) = x := Shown.parts.inj hx
    by_contra hcle
    have hneg := difference_hours_neg fl hsmall hcle
    have hpos := hsplits.hours.1
    omega
  · intro hcle
    exact ⟨_, rfl, difference_splits fl hsmall hcle⟩

def currentTime : Stamp := ⟨1700000000, by decide⟩

def secondAgo : Stamp := ⟨1699999999, by decide⟩

/-- One second ago is shown as a day, an hour, a minute and a second ago. -/
theorem second_ago_wrong :
    getTimeStamp (.nearest 53) (fun _ => none) currentTime.val (.stamp secondAgo.val) = .parts ⟨-1, -1, -1, -1⟩ ∧
      ¬ Parts.Splits ⟨-1, -1, -1, -1⟩ (secondAgo.val - currentTime.val) := by
  have hdiff : secondAgo.val - currentTime.val = -1 := rfl
  constructor
  · rw [getTimeStamp, hdiff, difference_eq _ (by decide)]
    rfl
  · rw [Parts.splits_iff, hdiff]
    decide

end ProGuide.Alfred
