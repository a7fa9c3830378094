import ProGuide.Lib.Runs
import ProGuide.Lib.Inodes
import ProGuide.Workflow.Files
/-!
# Writing a file through a temporary one

`atomic_writer` of `util.py` renames the temporary file before the `with` block
closes it, so what is still in the buffer reaches the file only after it has its
name. A reader sees a text that was there, or the part of a new one that was
written out; it is whole again once the writer has closed the file, unless the
writer is killed in between or cannot write the rest.
-/
open ProGuide.Lib.Runs ProGuide.Lib.Inodes

namespace ProGuide.Workflow.AtomicWriter

/-- Whether `os.rename` was called. -/
inductive Stage where
  | writing
  | renamed
  deriving DecidableEq, Repr

/-- A call of `atomic_writer`: the file it has open, and all that the `with` block
writes to it. -/
structure Job where
  stage : Stage
  inode : Nat
  data : Str
  deriving DecidableEq, Repr

/-- The directory, what the disk has of each file, and the call each process is in. -/
structure State where
  dir : Dir Str
  text : Nat → Str
  job : Nat → Option Job

inductive Action where
  /-- `open(temppath, 'wb')`. -/
  | start (pid : Nat) (data : Str)
  /-- The buffer is written out, up to the `n`th character of the data. -/
  | flush (pid n : Nat)
  | rename (pid : Nat)
  | close (pid : Nat)
  /-- Closing the renamed file raises: only the first `n` characters are written out. -/
  | closeFail (pid n : Nat)
  /-- The block raises after passing `n` characters, or `os.rename` does. -/
  | fail (pid n : Nat)
  | kill (pid : Nat)
  deriving DecidableEq, Repr

def State.setJob (s : State) (pid : Nat) (job : Option Job) : State := { s with job := Function.update s.job pid job }

def State.setText (s : State) (inode : Nat) (text : Str) : State := { s with text := Function.update s.text inode text }

/-- What one step of a process does; none when it is elsewhere in its code. -/
def step (fpath : Str) (s : State) : Action → Option State
  | .start p data =>
    match s.job p with
    | none =>
      let i := s.dir.inode (tempPath fpath p)
      some { (s.setText i []).setJob p (some ⟨.writing, i, data⟩) with dir := s.dir.create (tempPath fpath p) }
    | some _ => none
  | .flush p n =>
    match s.job p with
    | some j => if (s.text j.inode).length ≤ n then some (s.setText j.inode (j.data.take n)) else none
    | none => none
  | .rename p =>
    match s.job p with
    | some ⟨.writing, i, data⟩ =>
      some { s.setJob p (some ⟨.renamed, i, data⟩) with dir := s.dir.rename (tempPath fpath p) fpath }
    | _ => none
  | .close p =>
    match s.job p with
    | some ⟨.renamed, i, data⟩ =>
      some { (s.setText i data).setJob p none with dir := s.dir.unlink (tempPath fpath p) }
    | _ => none
  | .closeFail p n =>
    match s.job p with
    | some ⟨.renamed, i, data⟩ =>
      if (s.text i).length ≤ n then
        some { (s.setText i (data.take n)).setJob p none with dir := s.dir.unlink (tempPath fpath p) }
      else none
    | _ => none
  | .fail p n =>
    match s.job p with
    | some ⟨.writing, i, data⟩ =>
      some { (s.setText i (data.take n)).setJob p none with dir := s.dir.unlink (tempPath fpath p) }
    | _ => none
  | .kill p => some (s.setJob p none)

/-- No call is under way. Temporary files may be there, left by processes that were killed. -/
def start (d : Dir Str) (text : Nat → Str) : State where
  dir := d
  text := text
  job _ := none

/-- What a reader of the file gets. -/
def State.read (fpath : Str) (s : State) : Option Str := (s.dir.entry fpath).map s.text

/-! ## What a run gives out -/

inductive Mark where
  /-- A text got the file's name. -/
  | published (data : Str)
  /-- A process was killed between `os.rename` and the end of its block, or could not
  close its file there. -/
  | torn
  deriving DecidableEq, Repr

def marks (s : State) : Action → List Mark
  | .rename p =>
    match s.job p with
    | some ⟨.writing, _, data⟩ => [.published data]
    | _ => []
  | .closeFail p _ | .kill p =>
    match s.job p with
    | some ⟨.renamed, _, _⟩ => [.torn]
    | _ => []
  | _ => []

/-- The text was there at first, or was given the file's name since. -/
def Known (old : Option Str) (ms : List Mark) (w : Str) : Prop := old = some w ∨ .published w ∈ ms

/-- What holds between two steps, `old` being the text at first and `ms` what was
given out since. -/
structure Inv (fpath : Str) (old : Option Str) (ms : List Mark) (s : State) : Prop where
  made : ∀ p j, s.job p = some j → j.inode < s.dir.made
  apart : ∀ p q j k, s.job p = some j → s.job q = some k → j.inode = k.inode → p = q
  temp : ∀ p j, s.job p = some j → j.stage = .writing → s.dir.entry (tempPath fpath p) = some j.inode
  placed : ∀ p j, s.job p = some j → j.stage = .renamed → ∀ n, s.dir.entry n = some j.inode → n = fpath
  begun : ∀ p j, s.job p = some j → s.text j.inode <+: j.data
  target : ∀ i, s.dir.entry fpath = some i → ∃ w, Known old ms w ∧ s.text i <+: w ∧
    (∀ p j, s.job p = some j → j.inode = i → j.data = w) ∧
    (.torn ∉ ms → (∀ p j, s.job p = some j → j.inode ≠ i) → s.text i = w)
  there : old ≠ none → s.dir.entry fpath ≠ none

section Steps
variable {fpath : Str} {old : Option Str} {ms : List Mark} {s t : State}

theorem job_setJob {p q : Nat} {o : Option Job} {k : Job} (h : (s.setJob p o).job q = some k) :
    (q = p ∧ o = some k) ∨ (q ≠ p ∧ s.job q = some k) := by
  unfold State.setJob at h
  by_cases hq : q = p
  · subst hq
    exact .inl ⟨rfl, by simpa using h⟩
  · exact .inr ⟨hq, by simpa [hq] using h⟩

theorem text_setText_other {i j : Nat} (text : Str) (h : j ≠ i) : (s.setText i text).text j = s.text j :=
  Function.update_of_ne h ..

@[simp] theorem text_setText_self (i : Nat) (text : Str) : (s.setText i text).text i = text := Function.update_self ..

/-- A file that is being written does not have the final name yet. -/
theorem writing_ne_target (hi : Inv fpath old ms s) {p : Nat} {j : Job} (hj : s.job p = some j) (hw : j.stage = .writing) :
    s.dir.entry fpath ≠ some j.inode := fun h =>
  tempPath_ne fpath p (s.dir.entry_inj _ _ _ (hi.temp p j hj hw) h)

theorem inv_start_step {p : Nat} {data : Str} (hi : Inv fpath old ms s) (h : step fpath s (.start p data) = some t) :
    Inv fpath old ms t := by
  simp only [step] at h
  split at h
  case h_2 => cases h
  case h_1 hp =>
  obtain rfl := Option.some.inj h
  have hne : fpath ≠ tempPath fpath p := (tempPath_ne fpath p).symm
  -- the inode opened is of no other call, and not the one that has the final name
  have hfree : ∀ q k, s.job q = some k → k.inode ≠ s.dir.inode (tempPath fpath p) := by
    intro q k hq heq
    rcases s.dir.inode_cases (tempPath fpath p) with hentry | ⟨-, hmade⟩
    · cases hstage : k.stage with
      | writing =>
        have hk := hi.temp q k hq hstage
        rw [heq, ← hentry] at hk
        have hqp : q = p := tempPath_inj (s.dir.entry_inj _ _ _ (hk.trans hentry) hentry)
        rw [hqp, hp] at hq
        cases hq
      | renamed => exact tempPath_ne fpath p (hi.placed q k hq hstage _ (heq ▸ hentry))
    · have := hi.made q k hq
      omega
  have htarget : ∀ i, s.dir.entry fpath = some i → i ≠ s.dir.inode (tempPath fpath p) := fun i hentry =>
    Dir.ne_inode hentry hne
  constructor
  · intro q k hq
    rcases job_setJob hq with ⟨rfl, hk⟩ | ⟨-, hk⟩
    · obtain rfl := Option.some.inj hk
      exact s.dir.inode_lt_create _
    · exact Nat.lt_of_lt_of_le (hi.made q k hk) (s.dir.made_le_create _)
  · intro q r j k hq hr heq
    rcases job_setJob hq with ⟨rfl, hj⟩ | ⟨-, hj⟩ <;> rcases job_setJob hr with ⟨rfl, hk⟩ | ⟨-, hk⟩
    · rfl
    · obtain rfl := Option.some.inj hj
      exact absurd heq.symm (hfree r k hk)
    · obtain rfl := Option.some.inj hk
      exact absurd heq (hfree q j hj)
    · exact hi.apart q r j k hj hk heq
  · intro q k hq hstage
    show (s.dir.create _).entry _ = _
    rw [Dir.entry_create]
    rcases job_setJob hq with ⟨rfl, hk⟩ | ⟨hqp, hk⟩
    · obtain rfl := Option.some.inj hk
      rw [if_pos rfl]
    · rw [if_neg (fun h => hqp (tempPath_inj h))]
      exact hi.temp q k hk hstage
  · intro q k hq hstage n hn
    replace hn : (s.dir.create _).entry n = _ := hn
    rw [Dir.entry_create] at hn
    rcases job_setJob hq with ⟨rfl, hk⟩ | ⟨-, hk⟩
    · obtain rfl := Option.some.inj hk
      cases hstage
    · split at hn
      · exact absurd (Option.some.inj hn).symm (hfree q k hk)
      · exact hi.placed q k hk hstage n hn
  · intro q k hq
    rcases job_setJob hq with ⟨rfl, hk⟩ | ⟨-, hk⟩
    · obtain rfl := Option.some.inj hk
      show (s.setText _ []).text _ <+: data
      rw [text_setText_self]
      exact List.nil_prefix
    · show (s.setText _ []).text _ <+: _
      rw [text_setText_other _ (hfree q k hk)]
      exact hi.begun q k hk
  · intro i hentry
    replace hentry : (s.dir.create _).entry fpath = _ := hentry
    rw [Dir.entry_create, if_neg hne] at hentry
    obtain ⟨w, hknown, hprefix, hjobs, hwhole⟩ := hi.target i hentry
    have htext : (s.setText (s.dir.inode (tempPath fpath p)) []).text i = s.text i :=
      text_setText_other _ (htarget i hentry)
    refine ⟨w, hknown, htext ▸ hprefix, fun q k hq hki => ?_, fun hm hno => htext ▸ hwhole hm fun q k hq => ?_⟩
    · rcases job_setJob hq with ⟨rfl, hk⟩ | ⟨-, hk⟩
      · obtain rfl := Option.some.inj hk
        exact absurd hki.symm (htarget i hentry)
      · exact hjobs q k hk hki
    · have hqp : q ≠ p := by
        rintro rfl
        rw [hp] at hq
        cases hq
      refine hno q k ?_
      show Function.update s.job p _ q = some k
      rw [Function.update_of_ne hqp]
      exact hq
  · intro hold
    show (s.dir.create _).entry fpath ≠ none
    rw [Dir.entry_create, if_neg hne]
    exact hi.there hold

/-- What is written goes to the writer's own file. -/
theorem inv_setText {p : Nat} {j : Job} (hi : Inv fpath old ms s) (hj : s.job p = some j) {text : Str}
    (htext : text <+: j.data) : Inv fpath old ms (s.setText j.inode text) := by
  refine ⟨hi.made, hi.apart, hi.temp, hi.placed, fun q k hq => ?_, fun i hentry => ?_, hi.there⟩
  · by_cases hqp : q = p
    · subst hqp
      obtain rfl := Option.some.inj (hj.symm.trans hq)
      rwa [text_setText_self]
    · rw [text_setText_other _ fun heq => hqp (hi.apart q p k j hq hj heq)]
      exact hi.begun q k hq
  · obtain ⟨w, hknown, hprefix, hjobs, hwhole⟩ := hi.target i hentry
    by_cases hij : i = j.inode
    · refine ⟨w, hknown, ?_, hjobs, fun _ hno => absurd hij.symm (hno p j hj)⟩
      rw [hij, text_setText_self, ← hjobs p j hj hij.symm]
      exact htext
    · refine ⟨w, hknown, ?_, hjobs, ?_⟩
      · rwa [text_setText_other _ hij]
      · rwa [text_setText_other _ hij]

theorem inv_flush {p n : Nat} (hi : Inv fpath old ms s) (h : step fpath s (.flush p n) = some t) : Inv fpath old ms t := by
  simp only [step] at h
  split at h
  case h_2 => cases h
  case h_1 j hj =>
  split at h
  · obtain rfl := Option.some.inj h
    exact inv_setText hi hj (List.take_prefix _ _)
  · cases h

theorem known_append {w : Str} (h : Known old ms w) (more : List Mark) : Known old (ms ++ more) w :=
  h.imp_right (List.mem_append_left more)

theorem inv_marks (hi : Inv fpath old ms s) (more : List Mark) : Inv fpath old (ms ++ more) s := by
  refine ⟨hi.made, hi.apart, hi.temp, hi.placed, hi.begun, fun i hentry => ?_, hi.there⟩
  obtain ⟨w, hknown, hprefix, hjobs, hwhole⟩ := hi.target i hentry
  exact ⟨w, known_append hknown more, hprefix, hjobs, fun hm => hwhole fun h => hm (List.mem_append_left more h)⟩

/-- A call ends, and its temporary name is taken away or not. What it leaves under
the final name is whole, or a call was torn. -/
theorem inv_leave {p : Nat} {d : Dir Str} (hi : Inv fpath old ms s)
    (hd : d = s.dir ∨ d = s.dir.unlink (tempPath fpath p))
    (hend : ∀ j, s.job p = some j → j.stage = .renamed → s.text j.inode = j.data ∨ .torn ∈ ms) :
    Inv fpath old ms { s.setJob p none with dir := d } := by
  have hmade : d.made = s.dir.made := by
    rcases hd with rfl | rfl
    · rfl
    · rfl
  have hsub : ∀ n i, d.entry n = some i → s.dir.entry n = some i := by
    rintro n i h
    rcases hd with rfl | rfl
    · exact h
    · rw [Dir.entry_unlink] at h
      split at h
      · cases h
      · exact h
  have hkeep : ∀ q, q ≠ p → d.entry (tempPath fpath q) = s.dir.entry (tempPath fpath q) := by
    intro q hqp
    rcases hd with rfl | rfl
    · rfl
    · rw [Dir.entry_unlink, if_neg fun h => hqp (tempPath_inj h)]
  have hjob : ∀ q k, (s.setJob p none).job q = some k → q ≠ p ∧ s.job q = some k := by
    intro q k hq
    rcases job_setJob hq with ⟨-, hk⟩ | hk
    · cases hk
    · exact hk
  constructor
  · intro q k hq
    rw [hmade]
    exact hi.made q k (hjob q k hq).2
  · intro q r j k hq hr
    exact hi.apart q r j k (hjob q j hq).2 (hjob r k hr).2
  · intro q k hq hstage
    obtain ⟨hqp, hk⟩ := hjob q k hq
    exact (hkeep q hqp).trans (hi.temp q k hk hstage)
  · intro q k hq hstage n hn
    exact hi.placed q k (hjob q k hq).2 hstage n (hsub n _ hn)
  · intro q k hq
    exact hi.begun q k (hjob q k hq).2
  · intro i hentry
    replace hentry := hsub _ i hentry
    obtain ⟨w, hknown, hprefix, hjobs, hwhole⟩ := hi.target i hentry
    refine ⟨w, hknown, hprefix, fun q k hq => hjobs q k (hjob q k hq).2, fun hm hno => ?_⟩
    by_cases hp : ∃ j, s.job p = some j ∧ j.inode = i
    · obtain ⟨j, hj, rfl⟩ := hp
      have hstage : j.stage = .renamed := by
        cases hstage : j.stage with
        | writing => exact absurd hentry (writing_ne_target hi hj hstage)
        | renamed => rfl
      exact ((hend j hj hstage).resolve_right hm).trans (hjobs p j hj rfl)
    · refine hwhole hm fun q k hq heq => ?_
      by_cases hqp : q = p
      · subst hqp
        exact hp ⟨k, hq, heq⟩
      · refine hno q k ?_ heq
        show Function.update s.job p none q = some k
        rw [Function.update_of_ne hqp]
        exact hq
  · intro hold
    show d.entry fpath ≠ none
    rcases hd with rfl | rfl
    · exact hi.there hold
    · rw [Dir.entry_unlink, if_neg (tempPath_ne fpath p).symm]
      exact hi.there hold

theorem inv_close {p : Nat} (hi : Inv fpath old ms s) (h : step fpath s (.close p) = some t) : Inv fpath old ms t := by
  simp only [step] at h
  split at h
  case h_2 => cases h
  case h_1 i data hp =>
  obtain rfl := Option.some.inj h
  have hs : Inv fpath old ms (s.setText i data) := inv_setText hi hp (List.prefix_refl _)
  refine inv_leave hs (.inr rfl) fun j hj _ => .inl ?_
  obtain rfl := Option.some.inj (hp.symm.trans hj)
  exact text_setText_self i data

theorem inv_fail {p n : Nat} (hi : Inv fpath old ms s) (h : step fpath s (.fail p n) = some t) : Inv fpath old ms t := by
  simp only [step] at h
  split at h
  case h_2 => cases h
  case h_1 i data hp =>
  obtain rfl := Option.some.inj h
  have hs : Inv fpath old ms (s.setText i (data.take n)) := inv_setText hi hp (List.take_prefix _ _)
  refine inv_leave hs (.inr rfl) fun j hj hstage => ?_
  obtain rfl := Option.some.inj (hp.symm.trans hj)
  cases hstage

theorem inv_kill {p : Nat} (hi : Inv fpath old ms s) (h : step fpath s (.kill p) = some t) :
    Inv fpath old (ms ++ marks s (.kill p)) t := by
  obtain rfl := Option.some.inj h
  refine inv_leave (inv_marks hi _) (.inl rfl) fun j hj hstage => .inr ?_
  obtain ⟨stage, i, data⟩ := j
  obtain rfl : stage = .renamed := hstage
  simp [marks, hj]

/-- A file that could not be closed keeps the part of the text it has, and is torn. -/
theorem inv_closeFail {p n : Nat} (hi : Inv fpath old ms s) (h : step fpath s (.closeFail p n) = some t) :
    Inv fpath old (ms ++ marks s (.closeFail p n)) t := by
  simp only [step] at h
  split at h
  case h_2 => cases h
  case h_1 i data hp =>
  split at h
  case isFalse => cases h
  obtain rfl := Option.some.inj h
  have hs : Inv fpath old ms (s.setText i (data.take n)) := inv_setText hi hp (List.take_prefix _ _)
  exact inv_leave (inv_marks hs _) (.inr rfl) fun j _ _ => .inr (by simp [marks, hp])

theorem inv_rename {p : Nat} (hi : Inv fpath old ms s) (h : step fpath s (.rename p) = some t) :
    Inv fpath old (ms ++ marks s (.rename p)) t := by
  simp only [step] at h
  split at h
  case h_2 => cases h
  case h_1 i data hp =>
  obtain rfl := Option.some.inj h
  have htemp : s.dir.entry (tempPath fpath p) = some i := hi.temp p _ hp rfl
  have hjob : ∀ q k, (s.setJob p (some ⟨.renamed, i, data⟩)).job q = some k → q ≠ p → s.job q = some k := by
    intro q k hq hqp
    rcases job_setJob hq with ⟨rfl, -⟩ | ⟨-, hk⟩
    · exact absurd rfl hqp
    · exact hk
  have hself : ∀ k, (s.setJob p (some ⟨.renamed, i, data⟩)).job p = some k → k = ⟨.renamed, i, data⟩ := by
    intro k hk
    rcases job_setJob hk with ⟨-, hk⟩ | ⟨hne, -⟩
    · exact (Option.some.inj hk).symm
    · exact absurd rfl hne
  -- no other call has the renamed file open
  have hother : ∀ q k, q ≠ p → s.job q = some k → k.inode ≠ i := fun q k hqp hq heq => hqp (hi.apart q p k _ hq hp heq)
  constructor
  · intro q k hq
    show k.inode < s.dir.made
    by_cases hqp : q = p
    · subst hqp
      obtain rfl := hself k hq
      exact hi.made q ⟨.writing, i, data⟩ hp
    · exact hi.made q k (hjob q k hq hqp)
  · intro q r j k hq hr heq
    by_cases hqp : q = p <;> by_cases hrp : r = p
    · exact hqp.trans hrp.symm
    · subst hqp
      obtain rfl := hself j hq
      exact absurd heq.symm (hother r k hrp (hjob r k hr hrp))
    · subst hrp
      obtain rfl := hself k hr
      exact absurd heq (hother q j hqp (hjob q j hq hqp))
    · exact hi.apart q r j k (hjob q j hq hqp) (hjob r k hr hrp) heq
  · intro q k hq hstage
    have hqp : q ≠ p := by
      rintro rfl
      obtain rfl := hself k hq
      cases hstage
    show (s.dir.rename _ _).entry _ = _
    rw [Dir.entry_rename, if_neg (tempPath_ne fpath q), if_neg fun h => hqp (tempPath_inj h)]
    exact hi.temp q k (hjob q k hq hqp) hstage
  · intro q k hq hstage n hn
    replace hn : (s.dir.rename _ _).entry n = _ := hn
    rw [Dir.entry_rename] at hn
    split at hn
    case isTrue hfpath => exact hfpath
    split at hn
    case isTrue => cases hn
    case isFalse hne =>
    by_cases hqp : q = p
    · subst hqp
      obtain rfl := hself k hq
      exact absurd (s.dir.entry_inj _ _ _ hn htemp) hne
    · exact hi.placed q k (hjob q k hq hqp) hstage n hn
  · intro q k hq
    show s.text k.inode <+: k.data
    by_cases hqp : q = p
    · subst hqp
      obtain rfl := hself k hq
      exact hi.begun q ⟨.writing, i, data⟩ hp
    · exact hi.begun q k (hjob q k hq hqp)
  · intro i' hentry
    replace hentry : (s.dir.rename _ _).entry fpath = _ := hentry
    rw [Dir.entry_rename, if_pos rfl, htemp] at hentry
    obtain rfl := Option.some.inj hentry
    refine ⟨data, .inr (by simp [marks, hp]), hi.begun p _ hp, fun q k hq heq => ?_, fun _ hno => ?_⟩
    · by_cases hqp : q = p
      · subst hqp
        obtain rfl := hself k hq
        rfl
      · exact absurd heq (hother q k hqp (hjob q k hq hqp))
    · exact absurd rfl (hno p ⟨.renamed, i, data⟩ (Function.update_self ..))
  · intro _
    show (s.dir.rename _ _).entry fpath ≠ none
    rw [Dir.entry_rename, if_pos rfl, htemp]
    simp

end Steps

theorem inv_step (fpath : Str) (old : Option Str) (ms : List Mark) (s : State) (a : Action) (t : State)
    (hi : Inv fpath old ms s) (h : step fpath s a = some t) : Inv fpath old (ms ++ marks s a) t := by
  cases a with
  | start p data => exact inv_marks (inv_start_step hi h) _
  | flush p n => exact inv_marks (inv_flush hi h) _
  | rename p => exact inv_rename hi h
  | close p => exact inv_marks (inv_close hi h) _
  | closeFail p n => exact inv_closeFail hi h
  | fail p n => exact inv_marks (inv_fail hi h) _
  | kill p => exact inv_kill hi h

theorem inv_start (fpath : Str) (d : Dir Str) (text : Nat → Str) :
    Inv fpath ((start d text).read fpath) [] (start d text) := by
  refine ⟨fun _ _ h => ?_, fun _ _ _ _ h => ?_, fun _ _ h => ?_, fun _ _ h => ?_, fun _ _ h => ?_, fun i hentry => ?_,
    fun hold hnone => hold (by simpa [State.read] using hnone)⟩
  all_goals try cases h
  refine ⟨text i, .inl ?_, List.prefix_refl _, fun _ _ h => ?_, fun _ _ => rfl⟩
  · replace hentry : d.entry fpath = some i := hentry
    simp [State.read, start, hentry]
  · cases h

/-! ## What a reader gets -/

/-- In every interleaving of writers, a file that was there stays there, and what is
read is part of a text that was there at first or was given the file's name since. It
is the whole of it when no call is between its rename and its end, and no process was
killed or failed to close its file there. -/
theorem read_known {fpath : Str} {d : Dir Str} {text : Nat → Str} {as : List Action} {s : State}
    (hrun : exec (step fpath) (start d text) as = some s) :
    ((start d text).read fpath ≠ none → s.read fpath ≠ none) ∧ ∀ r, s.read fpath = some r →
      ∃ w, Known ((start d text).read fpath) (gather (step fpath) marks (start d text) as) w ∧ r <+: w ∧
        (.torn ∉ gather (step fpath) marks (start d text) as → (∀ p j, s.job p = some j → j.stage ≠ .renamed) →
          r = w) := by
  have hi := exec_gather (inv_step fpath _) (inv_start fpath d text) hrun
  rw [List.nil_append] at hi
  refine ⟨fun hold hnone => hi.there hold (by simpa [State.read] using hnone), fun r hr => ?_⟩
  obtain ⟨i, hentry, rfl⟩ := Option.map_eq_some_iff.1 hr
  obtain ⟨w, hknown, hprefix, -, hwhole⟩ := hi.target i hentry
  refine ⟨w, hknown, hprefix, fun hm hno => hwhole hm fun p j hj heq => ?_⟩
  -- a call that has the file open under its final name has renamed it
  cases hstage : j.stage with
  | writing => exact absurd (heq ▸ hentry) (writing_ne_target hi hj hstage)
  | renamed => exact hno p j hj hstage

/-- A first write of three characters; a reader comes before the block ends. -/
def firstWrite : List Action := [.start 1 "new".toList, .rename 1]

/-- That reader gets an empty text, once the temporary file has the final name. -/
theorem read_known_early : ∃ s, exec (step "settings.json".toList) (start Dir.empty fun _ => []) firstWrite = some s ∧
    s.read "settings.json".toList = some [] ∧ ∃ w, Known none [.published "new".toList] w ∧ [] <+: w := by
  have hrun : ∃ s, exec (step "settings.json".toList) (start Dir.empty fun _ => []) firstWrite = some s ∧
      s.read "settings.json".toList = some [] := ⟨_, rfl, rfl⟩
  obtain ⟨s, hs, hr⟩ := hrun
  obtain ⟨w, hw, hprefix, -⟩ := (read_known hs).2 _ hr
  exact ⟨s, hs, hr, w, hw, hprefix⟩

end ProGuide.Workflow.AtomicWriter
