import Mathlib.Algebra.Ring.Nat
import ProGuide.Lib.Runs
import ProGuide.Lib.SparseArray
import ProGuide.Lib.Text
/-!
# The lag monitor

The polling loop of `kafka统计未消费.sh`. The fifth column of each poll is moved
into a shell array that the loop never empties, so what a longer poll left in
it is counted again by the shorter ones after it.
-/
open ProGuide.Lib.Text ProGuide.Lib.Runs ProGuide.Lib.SparseArray

namespace ProGuide.Kafka

abbrev Str := List Char

/-! ## One poll -/

def isBlank (c : Char) : Bool := c = ' ' || c = '\t'

/-- `awk '{print $5}'` on a line. -/
def fifthColumn (line : Str) : Str := (fields isBlank line)[4]?.getD []

/-- The non-empty tokens of `tail -80 | awk '{print $5}'`: splitting `$result`
into words drops the empty ones. -/
def columnTokens (lines : List Str) : List Str :=
  ((lines.drop (lines.length - 80)).map fifthColumn).filter (· ≠ [])

/-- `echo` takes the word as options. -/
def isEchoOption : Str → Bool
  | '-' :: s => s ≠ [] && s.all (· ∈ ['n', 'e', 'E'])
  | _ => false

/-- The words `echo $result` prints. -/
def echoed (tokens : List Str) : List Str := tokens.dropWhile isEchoOption

/-- The characters that mean something to the shell inside a word. -/
def shellMeta : List Char := "|&;<>()$`\\\"'*?[]\x7b\x7d~".toList

/-- One round of the loop: the lines the consumer group command printed, none
when it failed, and the order in which awk's `for (i in a)` goes through the
numbered words. -/
structure Poll where
  lines : List Str
  order : List (Nat × Str)
  literal : ∀ t ∈ columnTokens lines, ∀ c ∈ t, c ∉ shellMeta
  each_once : order.Perm (enum (echoed (columnTokens lines)))

def Poll.tokens (p : Poll) : List Str := columnTokens p.lines

/-- The words that end up in the array. -/
def Poll.words (p : Poll) : List Str := echoed p.tokens

/-! ## Adding up -/

def isDigit (c : Char) : Bool := '0' ≤ c && c ≤ '9'

/-- `grep '^[[:digit:]]*$'`. -/
def isNumeral (t : Str) : Bool := t.all isDigit

/-- The number a numeral stands for. -/
def decimal (t : Str) : Nat := t.foldl (fun n c => 10 * n + (c.toNat - 48)) 0

/-- What a token adds to the total. -/
def amount (t : Str) : Nat := if isNumeral t then decimal t else 0

/-- `KAFKA_GROUP_ARRAY`. -/
abbrev Array := Arr Str

/-- `number` after the inner loop: `i` runs from one to the number of set
elements. -/
def total (arr : Array) : Nat :=
  (List.range arr.length).foldl (fun number i => amount ((arr.lookup (i + 1)).getD []) + number) 0

/-- The largest number `[` can compare. -/
def intmax : Nat := 9223372036854775807

/-- What a poll reports: the total, and whether the alert is posted. -/
structure Report where
  number : Nat
  alert : Bool
  deriving DecidableEq, Repr

/-- `[ $number -gt 3000 ]`, an error for a number out of range. -/
def exceeds (number : Nat) : Bool := number ≤ intmax && 3000 < number

/-- One round of the loop. -/
def poll (arr : Array) (p : Poll) : Array × Report :=
  let arr := assign arr p.order
  (arr, ⟨total arr, exceeds (total arr)⟩)

/-- The reports of the script, which starts with no array. -/
def reports (polls : List Poll) : List Report := outputs poll [] polls

/-! ## What the array holds -/

/-- The array's content after some polls: each poll laid over the one before. -/
def held (polls : List Poll) : List Str := polls.foldl (fun l p => overlay l p.words) []

/-- The total of a list of tokens. -/
def sum (tokens : List Str) : Nat := (tokens.map amount).sum

theorem foldl_range_sum (f : Nat → Nat) (n : Nat) :
    (List.range n).foldl (fun number i => f i + number) 0 = ((List.range n).map f).sum := by
  induction n with
  | zero => rfl
  | succ n ih =>
    rw [List.range_succ, List.foldl_append, List.map_append, List.sum_append, ih]
    simp [Nat.add_comm]

/-- The inner loop adds up the list the array holds. -/
theorem total_eq {arr : Array} {l : List Str} (h : arr.Perm (enum l)) : total arr = sum l := by
  have hread : (List.range l.length).map (fun i => amount ((arr.lookup (i + 1)).getD [])) = l.map amount := by
    apply List.ext_getElem
    · rw [List.length_map, List.length_map, List.length_range]
    · intro i hi hl
      rw [List.length_map] at hl
      rw [List.getElem_map, List.getElem_map, List.getElem_range, lookup_of_perm h hl, Option.getD_some]
  rw [total, length_of_perm h, foldl_range_sum, hread, sum]

theorem sum_append (l w : List Str) : sum (l ++ w) = sum l + sum w := by
  rw [sum, List.map_append, List.sum_append, sum, sum]

/-- An option of `echo` is no numeral. -/
theorem amount_echoOption {t : Str} (h : isEchoOption t = true) : amount t = 0 := by
  unfold isEchoOption at h
  split at h
  · rfl
  · cases h

theorem sum_echoed (tokens : List Str) : sum (echoed tokens) = sum tokens := by
  induction tokens with
  | nil => rfl
  | cons t tokens ih =>
    unfold echoed at ih ⊢
    cases ht : isEchoOption t
    · rw [List.dropWhile_cons_of_neg (by simp [ht])]
    · rw [List.dropWhile_cons_of_pos ht, ih, sum, sum, List.map_cons, List.sum_cons, amount_echoOption ht, Nat.zero_add]

/-- The tokens that earlier polls left in the array beyond those of a poll. -/
def leftover (earlier : List Poll) (p : Poll) : List Str := (held earlier).drop p.words.length

theorem held_append (earlier : List Poll) (p : Poll) : held (earlier ++ [p]) = p.words ++ leftover earlier p := by
  rw [held, List.foldl_append]
  rfl

/-- The array holds each poll laid over the earlier ones. -/
theorem poll_holds : Describes poll fun polls arr => arr.Perm (enum (held polls)) := by
  intro earlier arr p h
  rw [held_append]
  exact assign_enum h p.each_once

/-- A poll's number is its own total and that of the leftover. -/
theorem poll_number {earlier : List Poll} {arr : Array} (h : arr.Perm (enum (held earlier))) (p : Poll) :
    (poll arr p).2.number = sum p.tokens + sum (leftover earlier p) := by
  have hnew := poll_holds earlier arr p h
  have htotal := total_eq hnew
  rw [held_append, sum_append, Poll.words, sum_echoed] at htotal
  exact htotal

/-! ## What a poll should report -/

/-- The report is of the poll's own tokens, and the alert is posted exactly when
they add up to more than 3000. -/
def Right (p : Poll) (r : Report) : Prop :=
  r.number = sum p.tokens ∧ (r.alert = true ↔ 3000 < sum p.tokens)

/-- Nothing is left over that counts, and the total can be compared. -/
def Countable (earlier : List Poll) (p : Poll) : Prop := sum (leftover earlier p) = 0 ∧ sum p.tokens ≤ intmax

theorem exceeds_iff {n : Nat} : (exceeds n = true ↔ 3000 < n) ↔ n ≤ intmax := by
  simp only [exceeds, Bool.and_eq_true, decide_eq_true_eq]
  constructor
  · intro h
    by_cases hn : 3000 < n
    · exact (h.2 hn).1
    · exact Nat.le_trans (Nat.not_lt.1 hn) (by decide)
  · intro h
    exact ⟨And.right, fun hn => ⟨h, hn⟩⟩

theorem poll_right_iff {earlier : List Poll} {arr : Array} (h : arr.Perm (enum (held earlier))) (p : Poll) :
    Right p (poll arr p).2 ↔ Countable earlier p := by
  have hnumber := poll_number h p
  have halert : (poll arr p).2.alert = exceeds (poll arr p).2.number := rfl
  rw [Right, Countable, halert, hnumber]
  constructor
  · rintro ⟨hsum, hposted⟩
    have hzero : sum (leftover earlier p) = 0 := by omega
    rw [hzero, Nat.add_zero, exceeds_iff] at hposted
    exact ⟨hzero, hposted⟩
  · rintro ⟨hzero, hmax⟩
    rw [hzero, Nat.add_zero, exceeds_iff]
    exact ⟨rfl, hmax⟩

/-- Every poll of a run reports its own total exactly when no poll finds a
counting leftover of the earlier ones, nor a total out of range. -/
theorem reports_right_iff (polls : List Poll) : List.Forall₂ Right polls (reports polls) ↔
    ∀ earlier p later, polls = earlier ++ p :: later → Countable earlier p := by
  have hempty : ([] : Array).Perm (enum (held [])) := List.Perm.refl _
  exact outputs_right_iff poll_holds (fun _ _ p h => poll_right_iff h p) hempty polls

/-- A poll of one line, and a poll whose command failed. -/
def busyPoll : Poll where
  lines := ["otc orders 0 100 5000 5100".toList]
  order := [(1, "5000".toList)]
  literal t ht := forall_mem_of_all (forall_mem_of_all (P := fun t => (t.all fun c => c ∉ shellMeta) = true) rfl t ht)
  each_once := List.Perm.refl _

def failedPoll : Poll where
  lines := []
  order := []
  literal _ ht := absurd ht List.not_mem_nil
  each_once := List.Perm.refl _

/-- The failed poll reports the lag of the poll before it, and the alert. -/
theorem failed_poll_recounts :
    reports [busyPoll, failedPoll] = [⟨5000, true⟩, ⟨5000, true⟩] ∧
      ¬ List.Forall₂ Right [busyPoll, failedPoll] (reports [busyPoll, failedPoll]) := by
  have hreports : reports [busyPoll, failedPoll] = [⟨5000, true⟩, ⟨5000, true⟩] := by decide
  refine ⟨hreports, fun h => ?_⟩
  rw [hreports, List.forall₂_cons, List.forall₂_cons] at h
  have hnumber := h.2.1.1
  exact absurd hnumber (by decide)

/-! ## What a poll does report -/

/-- Word `i` of the last poll that had as many words. -/
def lastWord (polls : List Poll) (i : Nat) : Option Str := polls.reverse.findSome? fun p => p.words[i]?

/-- The most words that a poll had. -/
def longest (polls : List Poll) : Nat := polls.foldl (fun n p => max n p.words.length) 0

/-- The sum of the last words seen in each place. -/
def lastSum (polls : List Poll) : Nat :=
  ((List.range (longest polls)).map fun i => amount ((lastWord polls i).getD [])).sum

theorem longest_append (polls : List Poll) (p : Poll) :
    longest (polls ++ [p]) = max (longest polls) p.words.length := by
  rw [longest, List.foldl_append]
  rfl

theorem lastWord_append (polls : List Poll) (p : Poll) (i : Nat) :
    lastWord (polls ++ [p]) i = (p.words[i]?).or (lastWord polls i) := by
  rw [lastWord, List.reverse_append, List.reverse_singleton, List.singleton_append, List.findSome?_cons]
  cases p.words[i]? <;> rfl

theorem length_held (polls : List Poll) : (held polls).length = longest polls := by
  induction polls using List.reverseRecOn with
  | nil => rfl
  | append_singleton polls p ih =>
    rw [held_append, leftover, List.length_append, List.length_drop, ih, longest_append]
    omega

theorem held_getElem (polls : List Poll) (i : Nat) : (held polls)[i]? = lastWord polls i := by
  induction polls using List.reverseRecOn with
  | nil => rfl
  | append_singleton polls p ih =>
    rw [held_append, leftover, lastWord_append, ← ih, List.getElem?_append]
    split
    · next hi =>
      rw [List.getElem?_eq_getElem hi]
      rfl
    · next hi =>
      have hindex : p.words.length + (i - p.words.length) = i := by omega
      rw [List.getElem?_drop, hindex, List.getElem?_eq_none (Nat.le_of_not_lt hi)]
      rfl

theorem sum_held (polls : List Poll) : sum (held polls) = lastSum polls := by
  have hread : (List.range (longest polls)).map (fun i => amount ((lastWord polls i).getD [])) = (held polls).map amount := by
    apply List.ext_getElem
    · rw [List.length_map, List.length_map, List.length_range, length_held]
    · intro i hi hl
      rw [List.length_map] at hl
      rw [List.getElem_map, List.getElem_map, List.getElem_range, ← held_getElem, List.getElem?_eq_getElem hl,
        Option.getD_some]
  rw [sum, lastSum, hread]

/-- In every run, what a poll reports adds up, for each place in the column, the word of
the last poll that had one there. So it never reports less than its own total, and it
raises the alert by that sum alone. -/
theorem reports_last_words {polls earlier later : List Poll} {p : Poll} (h : polls = earlier ++ p :: later) :
    (reports polls)[earlier.length]? =
      some ⟨lastSum (earlier ++ [p]), exceeds (lastSum (earlier ++ [p]))⟩ ∧
    sum p.tokens ≤ lastSum (earlier ++ [p]) := by
  have hempty : ([] : Array).Perm (enum (held [])) := List.Perm.refl _
  have hheld : (final poll [] earlier).Perm (enum (held earlier)) :=
    final_invariant (I := fun polls (arr : Array) => arr.Perm (enum (held polls))) poll_holds hempty earlier
  have hnew := total_eq (poll_holds earlier _ p hheld)
  rw [sum_held] at hnew
  refine ⟨?_, ?_⟩
  · rw [h, reports, outputs_getElem, ← hnew]
    rfl
  · rw [← sum_held, held_append, sum_append, Poll.words, sum_echoed]
    exact Nat.le_add_right _ _

theorem reports_last_words_failed : (reports [busyPoll, failedPoll])[1]? =
    some ⟨lastSum [busyPoll, failedPoll], exceeds (lastSum [busyPoll, failedPoll])⟩ :=
  (@reports_last_words [busyPoll, failedPoll] [busyPoll] [] failedPoll rfl).1

end ProGuide.Kafka
