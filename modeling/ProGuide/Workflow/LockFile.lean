import Mathlib.Data.List.Nodup
import Mathlib.Data.List.Perm.Subperm
import ProGuide.Lib.Runs
import ProGuide.Lib.Inodes
import ProGuide.Workflow.Files
/-!
# Lock files

`LockFile` of `util.py` guards a file with an `fcntl` lock on another one beside
it. A process that waits keeps that file open, also when `acquire` gives up, and
`release` unlinks it after unlocking: a process that still has it open gets a lock
then that newcomers, who make the file anew, do not see. How many can hold the lock
at once is counted by how often that happened.
-/
open ProGuide.Lib.Runs ProGuide.Lib.Inodes

namespace ProGuide.Workflow.LockFile

/-- Where a process is with its `LockFile`. -/
inductive Pc where
  /-- `_lockfile` is `None`. -/
  | idle
  /-- `acquire` has given up, and left `_lockfile` open. -/
  | kept (inode : Nat)
  /-- In `acquire`, with `_lockfile` open; `lockf` has not succeeded. -/
  | opened (inode : Nat)
  | locked (inode : Nat)
  /-- `release` has unlocked and closed the file, and is about to unlink it. -/
  | released
  deriving DecidableEq, Repr

/-- The inode a process has open. -/
def Pc.file : Pc → Option Nat
  | .kept i | .opened i | .locked i => some i
  | .idle | .released => none

/-- The directory, the kernel's locks by inode, and each process. -/
structure State (P : Type) where
  dir : Dir Str
  owner : Nat → Option P
  pc : P → Pc

inductive Action (P : Type) where
  /-- `acquire` begins: `open(self.lockfile, 'a')`, if `_lockfile` is `None`. -/
  | acquire (p : P)
  /-- `fcntl.lockf` without waiting. -/
  | lockf (p : P)
  /-- `acquire` times out, was not to block, or `lockf` raises. -/
  | giveUp (p : P)
  | unlock (p : P)
  | unlink (p : P)
  | die (p : P)

variable {P : Type} [DecidableEq P]

def State.setPc (s : State P) (p : P) (pc : Pc) : State P := { s with pc := Function.update s.pc p pc }

/-- Closing a file drops the lock its process has on it. -/
def unlocked (owner : Nat → Option P) : Pc → Nat → Option P
  | .locked i => Function.update owner i none
  | _ => owner

/-- What one step of a process does; none when it is elsewhere in its code. -/
def step (file : Str) (s : State P) : Action P → Option (State P)
  | .acquire p =>
    match s.pc p with
    | .idle => some { s.setPc p (.opened (s.dir.inode file)) with dir := s.dir.create file }
    | .kept i => some (s.setPc p (.opened i))
    | _ => none
  | .lockf p =>
    match s.pc p with
    | .opened i =>
      match s.owner i with
      | none => some { s.setPc p (.locked i) with owner := Function.update s.owner i (some p) }
      | some _ => some s
    | _ => none
  | .giveUp p =>
    match s.pc p with
    | .opened i => some (s.setPc p (.kept i))
    | _ => none
  | .unlock p =>
    match s.pc p with
    | .locked i => some { s.setPc p .released with owner := Function.update s.owner i none }
    | _ => none
  | .unlink p =>
    match s.pc p with
    | .released => some { s.setPc p .idle with dir := s.dir.unlink file }
    | _ => none
  | .die p => some { s.setPc p .idle with owner := unlocked s.owner (s.pc p) }

/-- No process has a lock file open. One may be there, left by a process that died. -/
def start (d : Dir Str) : State P where
  dir := d
  owner _ := none
  pc _ := .idle

/-- The process is inside the `with` block. -/
def State.Locked (s : State P) (p : P) : Prop := ∃ i, s.pc p = .locked i

/-! ## Lock files taken away while they are open -/

/-- Some process has the inode open that the lock file's name leads to. -/
def State.InUse (file : Str) (s : State P) : Prop := ∃ p, (s.pc p).file ≠ none ∧ (s.pc p).file = s.dir.entry file

open Classical in
/-- The steps that unlink a lock file that is open. -/
noncomputable def taken (file : Str) (s : State P) : Action P → Nat
  | .unlink _ => if s.InUse file then 1 else 0
  | _ => 0

/-- After `m` lock files were taken away: what is open beside the file now there is
on at most `m` inodes, and the kernel's locks are those the processes hold. -/
structure Inv (file : Str) (m : Nat) (s : State P) : Prop where
  strays : ∃ l : List Nat, l.length ≤ m ∧ ∀ p i, (s.pc p).file = some i → i ∈ l ∨ s.dir.entry file = some i
  owner : ∀ p i, s.pc p = .locked i → s.owner i = some p

@[simp] theorem setPc_self (s : State P) (p : P) (pc : Pc) : (s.setPc p pc).pc p = pc := Function.update_self ..

theorem setPc_other (s : State P) {p q : P} (pc : Pc) (h : q ≠ p) : (s.setPc p pc).pc q = s.pc q :=
  Function.update_of_ne h ..

@[simp] theorem setPc_dir (s : State P) (p : P) (pc : Pc) : (s.setPc p pc).dir = s.dir := rfl

@[simp] theorem setPc_owner (s : State P) (p : P) (pc : Pc) : (s.setPc p pc).owner = s.owner := rfl

omit [DecidableEq P] in
/-- A step that opens nothing leaves what is open where it was. -/
theorem strays_of_file {file : Str} {s t : State P} {l : List Nat}
    (h : ∀ p i, (s.pc p).file = some i → i ∈ l ∨ s.dir.entry file = some i) (hdir : t.dir.entry file = s.dir.entry file)
    (hfile : ∀ p i, (t.pc p).file = some i → (s.pc p).file = some i) (p : P) (i : Nat) (hp : (t.pc p).file = some i) :
    i ∈ l ∨ t.dir.entry file = some i := by
  rw [hdir]
  exact h p i (hfile p i hp)

theorem file_setPc {s : State P} {p : P} {pc : Pc} (h : pc.file = none ∨ pc.file = (s.pc p).file) (q : P) (i : Nat)
    (hq : ((s.setPc p pc).pc q).file = some i) : (s.pc q).file = some i := by
  by_cases hqp : q = p
  · subst hqp
    rw [setPc_self] at hq
    rcases h with h | h
    · rw [h] at hq
      cases hq
    · rwa [← h]
  · rwa [setPc_other s pc hqp] at hq

/-- A process that is not locked elsewhere keeps the locks as they are said to be. -/
theorem owner_setPc {s : State P} {p : P} {pc : Pc} (h : ∀ q i, s.pc q = .locked i → s.owner i = some q)
    (hpc : ∀ i, pc ≠ .locked i) (q : P) (i : Nat) (hq : (s.setPc p pc).pc q = .locked i) :
    q ≠ p ∧ s.owner i = some q := by
  have hqp : q ≠ p := by
    rintro rfl
    rw [setPc_self] at hq
    exact hpc i hq
  rw [setPc_other s pc hqp] at hq
  exact ⟨hqp, h q i hq⟩

/-- A process that goes on with the file it has open locks nothing and opens nothing. -/
theorem inv_setPc {file : Str} {m : Nat} {s : State P} {p : P} {pc : Pc} (hi : Inv file m s)
    (hfile : pc.file = (s.pc p).file) (hpc : ∀ i, pc ≠ .locked i) : Inv file m (s.setPc p pc) := by
  obtain ⟨⟨l, hl, hs⟩, ho⟩ := hi
  exact ⟨⟨l, hl, strays_of_file hs rfl (file_setPc (.inr hfile))⟩, fun q i hq => (owner_setPc ho hpc q i hq).2⟩

theorem inv_acquire {file : Str} {m : Nat} {s t : State P} {p : P} (hi : Inv file m s)
    (h : step file s (.acquire p) = some t) : Inv file m t := by
  simp only [step] at h
  split at h
  case h_3 => cases h
  case h_2 i hp =>
    obtain rfl := Option.some.inj h
    exact inv_setPc hi (by rw [hp]; rfl) (by simp)
  obtain rfl := Option.some.inj h
  obtain ⟨⟨l, hl, hs⟩, ho⟩ := hi
  refine ⟨⟨l, hl, fun q i hq => ?_⟩, fun q i hq => (owner_setPc ho (by simp) q i hq).2⟩
  show i ∈ l ∨ (s.dir.create file).entry file = some i
  rw [Dir.entry_create, if_pos rfl]
  by_cases hqp : q = p
  · subst hqp
    exact .inr (by simpa [State.setPc, Pc.file] using hq)
  · have hq : (s.pc q).file = some i := by rwa [show _ = s.pc q from setPc_other s _ hqp] at hq
    refine (hs q i hq).imp_right fun hentry => ?_
    rw [Dir.inode_of_entry hentry]

theorem inv_lockf {file : Str} {m : Nat} {s t : State P} {p : P} (hi : Inv file m s)
    (h : step file s (.lockf p) = some t) : Inv file m t := by
  simp only [step] at h
  split at h
  case h_2 => cases h
  case h_1 i hp =>
  split at h
  case h_2 =>
    obtain rfl := Option.some.inj h
    exact hi
  case h_1 hfree =>
  obtain rfl := Option.some.inj h
  obtain ⟨⟨l, hl, hs⟩, ho⟩ := hi
  refine ⟨⟨l, hl, strays_of_file hs rfl (file_setPc (.inr (by rw [hp]; rfl)))⟩, fun q j hq => ?_⟩
  by_cases hqp : q = p
  · subst hqp
    obtain rfl : i = j := by simpa [State.setPc] using hq
    exact Function.update_self ..
  · replace hq : s.pc q = .locked j := by rwa [show _ = s.pc q from setPc_other s _ hqp] at hq
    -- the inode just locked had no owner before
    have hji : j ≠ i := by
      rintro rfl
      have hown := ho q j hq
      rw [hfree] at hown
      cases hown
    show Function.update s.owner i (some p) j = some q
    rw [Function.update_of_ne hji]
    exact ho q j hq

theorem inv_giveUp {file : Str} {m : Nat} {s t : State P} {p : P} (hi : Inv file m s)
    (h : step file s (.giveUp p) = some t) : Inv file m t := by
  simp only [step] at h
  split at h
  case h_2 => cases h
  case h_1 i hp =>
  obtain rfl := Option.some.inj h
  exact inv_setPc hi (by rw [hp]; rfl) (by simp)

/-- Dropping the lock of a process that leaves takes no other's. -/
theorem owner_unlocked {s : State P} {p : P} {pc : Pc} (h : ∀ q i, s.pc q = .locked i → s.owner i = some q)
    (hpc : ∀ i, pc ≠ .locked i) (q : P) (i : Nat) (hq : (s.setPc p pc).pc q = .locked i) :
    unlocked s.owner (s.pc p) i = some q := by
  obtain ⟨hqp, hown⟩ := owner_setPc h hpc q i hq
  cases hp : s.pc p with
  | locked j =>
    show Function.update s.owner j none i = some q
    rw [Function.update_of_ne, hown]
    rintro rfl
    exact hqp (Option.some.inj (hown.symm.trans (h p i hp)))
  | idle | kept | opened | released => exact hown

theorem inv_unlock {file : Str} {m : Nat} {s t : State P} {p : P} (hi : Inv file m s)
    (h : step file s (.unlock p) = some t) : Inv file m t := by
  simp only [step] at h
  split at h
  case h_2 => cases h
  case h_1 i hp =>
  obtain rfl := Option.some.inj h
  obtain ⟨⟨l, hl, hs⟩, ho⟩ := hi
  refine ⟨⟨l, hl, strays_of_file hs rfl (file_setPc (.inl rfl))⟩, fun q j hq => ?_⟩
  have := owner_unlocked ho (by simp) q j hq
  rwa [hp] at this

theorem inv_die {file : Str} {m : Nat} {s t : State P} {p : P} (hi : Inv file m s)
    (h : step file s (.die p) = some t) : Inv file m t := by
  obtain rfl := Option.some.inj h
  obtain ⟨⟨l, hl, hs⟩, ho⟩ := hi
  exact ⟨⟨l, hl, strays_of_file hs rfl (file_setPc (.inl rfl))⟩, fun q i hq => owner_unlocked ho (by simp) q i hq⟩

/-- Unlinking makes strays of those who have the lock file open. -/
theorem inv_unlink {file : Str} {m : Nat} {s t : State P} {p : P} (hi : Inv file m s)
    (h : step file s (.unlink p) = some t) : Inv file (m + taken file s (.unlink p)) t := by
  simp only [step] at h
  split at h
  case h_2 => cases h
  obtain rfl := Option.some.inj h
  obtain ⟨⟨l, hl, hs⟩, ho⟩ := hi
  have hfile : ∀ q i, ((s.setPc p .idle).pc q).file = some i → (s.pc q).file = some i := file_setPc (.inl rfl)
  refine ⟨?_, fun q i hq => (owner_setPc ho (by simp) q i hq).2⟩
  by_cases huse : s.InUse file
  · refine ⟨s.dir.inode file :: l, ?_, fun q i hq => .inl ?_⟩
    · rw [taken, if_pos huse]
      exact Nat.succ_le_succ hl
    · rcases hs q i (hfile q i hq) with hmem | hentry
      · exact List.mem_cons_of_mem _ hmem
      · rw [Dir.inode_of_entry hentry]
        exact List.mem_cons_self
  · refine ⟨l, ?_, fun q i hq => .inl ?_⟩
    · rwa [taken, if_neg huse]
    · rcases hs q i (hfile q i hq) with hmem | hentry
      · exact hmem
      · exact absurd ⟨q, by simp [hfile q i hq], (hfile q i hq).trans hentry.symm⟩ huse

theorem inv_step (file : Str) (m : Nat) (s : State P) (a : Action P) (t : State P) (hi : Inv file m s)
    (h : step file s a = some t) : Inv file (m + taken file s a) t := by
  cases a with
  | acquire p => exact inv_acquire hi h
  | lockf p => exact inv_lockf hi h
  | giveUp p => exact inv_giveUp hi h
  | unlock p => exact inv_unlock hi h
  | unlink p => exact inv_unlink hi h
  | die p => exact inv_die hi h

omit [DecidableEq P] in
theorem inv_start (file : Str) (d : Dir Str) : Inv file 0 (start d : State P) :=
  ⟨⟨[], Nat.le_refl _, fun _ _ h => by cases h⟩, fun _ _ h => by cases h⟩

/-! ## How many hold the lock -/

/-- In every interleaving of processes with a `LockFile` each, those that hold the lock
at once are at most one more than the lock files that were unlinked while another
process had them open, in `acquire` or since it gave up. -/
theorem holders_le (file : Str) {d : Dir Str} {as : List (Action P)} {s : State P}
    (hrun : exec (step file) (start d) as = some s) {ps : List P} (hn : ps.Nodup) (hlocked : ∀ p ∈ ps, s.Locked p) :
    ps.length ≤ 1 + tally (step file) (taken file) (start d) as := by
  have hi := exec_invariant (inv_step file) (inv_start file d) hrun
  rw [Nat.zero_add] at hi
  obtain ⟨⟨l, hl, hs⟩, ho⟩ := hi
  -- every holder has an inode of its own, the one now named or a stray one
  have hnodup : (ps.map fun p => (s.pc p).file).Nodup := by
    refine List.Nodup.map_on (fun p hp q hq heq => ?_) hn
    obtain ⟨i, hpi⟩ := hlocked p hp
    obtain ⟨j, hqj⟩ := hlocked q hq
    obtain rfl : i = j := by simpa [hpi, hqj, Pc.file] using heq
    exact Option.some.inj ((ho p i hpi).symm.trans (ho q i hqj))
  have hsub : (ps.map fun p => (s.pc p).file) ⊆ s.dir.entry file :: l.map some := by
    intro o ho'
    obtain ⟨p, hp, rfl⟩ := List.mem_map.1 ho'
    obtain ⟨i, hpi⟩ := hlocked p hp
    have hfile : (s.pc p).file = some i := by rw [hpi]; rfl
    rw [hfile]
    rcases hs p i hfile with hmem | hentry
    · exact List.mem_cons_of_mem _ (List.mem_map_of_mem hmem)
    · rw [hentry]
      exact List.mem_cons_self
  have hle := (List.subperm_of_subset hnodup hsub).length_le
  simp only [List.length_map, List.length_cons] at hle
  omega

/-- A times out on B's lock, B releases, C acquires, and A tries again. -/
def staleRetry : List (Action (Fin 3)) :=
  [.acquire 1, .lockf 1, .acquire 0, .lockf 0, .giveUp 0, .unlock 1, .unlink 1, .acquire 2, .lockf 2, .acquire 0, .lockf 0]

/-- In that run A and C hold the lock of the settings at once. -/
theorem holders_le_two : ∃ s, exec (step (lockfile "settings.json".toList)) (start Dir.empty) staleRetry = some s ∧
    s.Locked 0 ∧ s.Locked 2 ∧ [(0 : Fin 3), 2].length ≤
      1 + tally (step (lockfile "settings.json".toList)) (taken (lockfile "settings.json".toList)) (start Dir.empty)
        staleRetry := by
  have hrun : ∃ s, exec (step (lockfile "settings.json".toList)) (start Dir.empty) staleRetry = some s ∧
      s.Locked 0 ∧ s.Locked 2 := ⟨_, rfl, ⟨0, rfl⟩, ⟨1, rfl⟩⟩
  obtain ⟨s, hs, h0, h2⟩ := hrun
  exact ⟨s, hs, h0, h2, holders_le _ hs (by decide) (by simp [h0, h2])⟩

end ProGuide.Workflow.LockFile
