import Mathlib.Data.Fintype.Basic
import ProGuide.Lib.Inodes
import ProGuide.Lib.ProcTable
import ProGuide.Lib.Runs
/-!
# Background jobs

`background.py` runs a command in a daemon, and keeps its pid in a file by which later
calls know that it runs. Nothing is locked between the look at that file and the record
of a new pid: calls may overlap, and be killed at any step, beside the daemons they start,
which may be killed at any time, and all other processes. Calls that keep apart have one
daemon between them.
-/
open ProGuide.Lib.Runs ProGuide.Lib.ProcTable ProGuide.Lib.Inodes

namespace ProGuide.Workflow.Background

variable {C A : Type}

/-! ## The code -/

/-- The files of one job name. -/
inductive JobFile where
  | pidfile
  /-- `pidfile + '.tmp'`. -/
  | tmp
  | argcache
  deriving DecidableEq, Repr

/-- Where a daemon is: it loads the cached arguments, deletes the cache, and runs the
command. -/
inductive JobPc (A : Type) where
  | loading
  | unlinking (args : A)
  | running (args : A)
  deriving DecidableEq, Repr

/-- A daemon, and the arguments of the call that started it. -/
structure Job (A : Type) where
  serial : Nat
  pid : Pid
  args : A
  pc : JobPc A
  deriving DecidableEq, Repr

/-- Where a call of `run_in_background` is, with the `background.py` it runs. -/
inductive CallerPc (A : Type) where
  | idle
  /-- `os.path.exists(pidfile)`. -/
  | checking (args : A)
  | reading (args : A)
  /-- `os.kill(pid, 0)`. -/
  | probing (args : A) (pid : Pid)
  | clearing (args : A)
  /-- `open(argcache, 'wb')`. -/
  | caching (args : A)
  | dumping (args : A) (inode : Nat)
  /-- `background.py` starts: `os.path.exists(argcache)`. -/
  | spawning (args : A)
  | forking (args : A)
  /-- The parent of the daemon puts its pid in a file: `open(tmp, 'wb')`. -/
  | opening (pid : Pid)
  | writing (pid : Pid) (inode : Nat)
  | placing
  deriving DecidableEq, Repr

/-- The processes, each with whether it may be signalled; the files, and for each inode
the pid or the arguments that can be read from it, if any; the calls; the daemons. -/
structure State (C A : Type) where
  table : Table Bool
  dir : Dir JobFile
  pids : Nat → Option Pid
  args : Nat → Option A
  caller : C → CallerPc A
  jobs : List (Job A)

inductive Action (C A : Type) where
  | call (c : C) (args : A)
  | caller (c : C)
  /-- The second fork, which makes the daemon. -/
  | fork (c : C) (pid : Pid)
  /-- The process that is at work for a call raises or is killed. -/
  | abort (c : C)
  | job (serial : Nat)
  | start (pid : Pid) (permitted : Bool)
  | exit (pid : Pid)
  | reap (pid : Pid)

/-- `_process_exists`. -/
def processExists (t : Table Bool) (pid : Pid) : Bool := (t.find pid).any Proc.info

/-- What is in the pid file, if it is there: a pid, or no number. -/
def State.recorded (s : State C A) : Option (Option Pid) := (s.dir.entry .pidfile).map s.pids

/-- What is in the argument cache, if it is there: the arguments, or nothing yet. -/
def State.cached (s : State C A) : Option (Option A) := (s.dir.entry .argcache).map s.args

/-- A file is opened for writing, which empties it. -/
def State.truncate (s : State C A) (file : JobFile) : State C A :=
  { s with
    dir := s.dir.create file
    pids := Function.update s.pids (s.dir.inode file) none
    args := Function.update s.args (s.dir.inode file) none }

section Code
variable [DecidableEq C]

def State.goto (s : State C A) (c : C) (next : CallerPc A) : State C A :=
  { s with caller := Function.update s.caller c next }

/-- The next step of a call, but for the fork. -/
def callerStep (s : State C A) (c : C) : Option (State C A) :=
  match s.caller c with
  | .checking args => some (s.goto c (if (s.dir.entry .pidfile).isSome then .reading args else .caching args))
  | .reading args =>
    match s.recorded with
    | some (some pid) => some (s.goto c (.probing args pid))
    -- `open` raises, or `int` does
    | some none | none => some (s.goto c .idle)
  | .probing args pid => some (s.goto c (if processExists s.table pid then .idle else .clearing args))
  | .clearing args => some ({ s with dir := s.dir.unlink .pidfile }.goto c (.caching args))
  | .caching args => some ((s.truncate .argcache).goto c (.dumping args (s.dir.inode .argcache)))
  | .dumping args inode => some ({ s with args := Function.update s.args inode (some args) }.goto c (.spawning args))
  | .spawning args => some (s.goto c (if (s.dir.entry .argcache).isSome then .forking args else .idle))
  | .opening pid => some ((s.truncate .tmp).goto c (.writing pid (s.dir.inode .tmp)))
  | .writing pid inode => some ({ s with pids := Function.update s.pids inode (some pid) }.goto c .placing)
  | .placing =>
    match s.dir.entry .tmp with
    | some _ => some ({ s with dir := s.dir.rename .tmp .pidfile }.goto c .idle)
    | none => some (s.goto c .idle)
  | .idle | .forking _ => none

def setJob (jobs : List (Job A)) (j : Job A) : List (Job A) := jobs.map fun k => if k.serial = j.serial then j else k

/-- The daemon ends, whether or not its process does at once. -/
def dropJob (jobs : List (Job A)) (serial : Nat) : List (Job A) := jobs.filter fun k => k.serial ≠ serial

/-- The next step of a daemon. Its cached arguments may be missing. -/
def jobStep (s : State C A) (j : Job A) : State C A :=
  match j.pc with
  | .loading =>
    match s.cached with
    | some (some args) => { s with jobs := setJob s.jobs { j with pc := .unlinking args } }
    | some none | none => { s with table := s.table.exit j.pid, jobs := dropJob s.jobs j.serial }
  | .unlinking args =>
    match s.dir.entry .argcache with
    | some _ => { s with dir := s.dir.unlink .argcache, jobs := setJob s.jobs { j with pc := .running args } }
    | none => { s with table := s.table.exit j.pid, jobs := dropJob s.jobs j.serial }
  | .running _ => { s with dir := s.dir.unlink .pidfile, jobs := dropJob s.jobs j.serial }

def step (s : State C A) : Action C A → Option (State C A)
  | .call c args =>
    match s.caller c with
    | .idle => some (s.goto c (.checking args))
    | _ => none
  | .caller c => callerStep s c
  | .fork c pid =>
    match s.caller c with
    | .forking args =>
      (s.table.start pid true).map fun t =>
        { s.goto c (.opening pid) with table := t, jobs := s.jobs ++ [⟨s.table.started, pid, args, .loading⟩] }
    | _ => none
  | .abort c => some (s.goto c .idle)
  | .job serial => (s.jobs.find? (·.serial = serial)).map (jobStep s)
  | .start pid permitted => (s.table.start pid permitted).map fun t => { s with table := t }
  | .exit pid => some { s with table := s.table.exit pid, jobs := s.jobs.filter (·.pid ≠ pid) }
  | .reap pid => some { s with table := s.table.reap pid }

end Code

/-- No call and no daemon. The files may be left from before, with anything in them. -/
def start (t : Table Bool) (d : Dir JobFile) (pids : Nat → Option Pid) (args : Nat → Option A) : State C A :=
  ⟨t, d, pids, args, fun _ => .idle, []⟩

/-- `_job_pid`, when nothing happens meanwhile. -/
def jobPid (s : State C A) : Option Pid := s.recorded.join.filter (processExists s.table)

/-! ## Calls that keep apart -/

/-- A daemon is there whose pid is not in the pid file yet. -/
def CallerPc.records : CallerPc A → Bool
  | .opening _ | .writing _ _ | .placing => true
  | _ => false

/-- No call begins while another is under way, and none is cut off between the fork and
the record of the daemon's pid. -/
def Orderly (s : State C A) : Action C A → Prop
  | .call _ _ => ∀ c, s.caller c = .idle
  | .abort c => (s.caller c).records = false
  | _ => True

/-- The daemon's process is there, and has not exited. -/
def Alive (t : Table Bool) (j : Job A) : Prop := ⟨j.serial, j.pid, true, false⟩ ∈ t.procs

/-- A daemon will run, or runs, what it was started for. -/
def Meant (cached : Option (Option A)) (j : Job A) : Prop :=
  match j.pc with
  | .loading => cached = some (some j.args)
  | .unlinking args | .running args => args = j.args

/-- The pid file leads to the daemon that is there, if any. -/
def Recorded (s : State C A) : Prop := ∀ j ∈ s.jobs, s.recorded = some (some j.pid)

/-- What a call knows of the daemon that is there, if any. -/
def Knows (s : State C A) : CallerPc A → Prop
  | .idle => True
  | .checking _ | .reading _ => Recorded s
  | .probing _ pid => Recorded s ∧ ∀ j ∈ s.jobs, j.pid = pid
  | .clearing _ | .caching _ => s.jobs = []
  | .dumping _ inode => s.jobs = [] ∧ s.dir.entry .argcache = some inode
  | .spawning args | .forking args => s.jobs = [] ∧ s.cached = some (some args)
  | .opening pid => ∀ j ∈ s.jobs, j.pid = pid
  | .writing pid inode => s.dir.entry .tmp = some inode ∧ ∀ j ∈ s.jobs, j.pid = pid
  | .placing => ∀ j ∈ s.jobs, (s.dir.entry .tmp).map s.pids = some (some j.pid)

structure Inv (s : State C A) : Prop where
  apart : ∀ c d, s.caller c ≠ .idle → s.caller d ≠ .idle → c = d
  one : s.jobs.length ≤ 1
  alive : ∀ j ∈ s.jobs, Alive s.table j
  meant : ∀ j ∈ s.jobs, Meant s.cached j
  knows : ∀ c, Knows s (s.caller c)
  recorded : (∀ c, s.caller c = .idle) → Recorded s

theorem inv_start (t : Table Bool) (d : Dir JobFile) (pids : Nat → Option Pid) (args : Nat → Option A) :
    Inv (start t d pids args : State C A) where
  apart _ _ hc := absurd rfl hc
  one := Nat.zero_le _
  alive _ hj := absurd hj List.not_mem_nil
  meant _ hj := absurd hj List.not_mem_nil
  knows _ := trivial
  recorded _ _ hj := absurd hj List.not_mem_nil

theorem Alive.find {t : Table Bool} {j : Job A} (h : Alive t j) : t.find j.pid = some ⟨j.serial, j.pid, true, false⟩ :=
  Table.find_of_mem h

theorem Alive.exists {t : Table Bool} {j : Job A} (h : Alive t j) : processExists t j.pid = true := by
  rw [processExists, h.find]
  rfl

theorem recorded_nil {s : State C A} (h : s.jobs = []) : Recorded s := fun j hj => by
  rw [h] at hj
  cases hj

section Steps
variable [DecidableEq C]

/-! ### The calls -/

/-- The one call under way goes on. -/
theorem Inv.goes {s t : State C A} (h : Inv s) {c : C} (hc : s.caller c ≠ .idle) {next : CallerPc A}
    (hcaller : t.caller = Function.update s.caller c next) (hjobs : t.jobs = s.jobs) (htable : t.table = s.table)
    (hcached : s.jobs = [] ∨ t.cached = s.cached) (hk : Knows t next) (hr : next = .idle → Recorded t) : Inv t := by
  have hidle : ∀ d, d ≠ c → t.caller d = .idle := by
    intro d hd
    rw [hcaller, Function.update_of_ne hd]
    by_contra hne
    exact hd (h.apart d c hne hc)
  have honly : ∀ d, t.caller d ≠ .idle → d = c := fun d hd => by
    by_contra hne
    exact hd (hidle d hne)
  refine ⟨fun d e hd he => (honly d hd).trans (honly e he).symm, hjobs ▸ h.one, ?_, ?_, fun d => ?_, fun hall => hr ?_⟩
  · rw [hjobs, htable]
    exact h.alive
  · intro j hj
    rw [hjobs] at hj
    rcases hcached with hnone | hsame
    · rw [hnone] at hj
      cases hj
    · rw [hsame]
      exact h.meant j hj
  · by_cases hd : d = c
    · rw [hd, hcaller, Function.update_self]
      exact hk
    · rw [hidle d hd]
      trivial
  · have := hall c
    rwa [hcaller, Function.update_self] at this

omit [DecidableEq C] in
/-- Opening another file for writing leaves the argument cache. -/
theorem cached_truncate (s : State C A) {file : JobFile} (h : JobFile.argcache ≠ file) :
    (s.truncate file).cached = s.cached := by
  unfold State.cached State.truncate
  simp only [Dir.entry_create, if_neg h]
  cases hentry : s.dir.entry .argcache with
  | none => rfl
  | some i => simp [Function.update_of_ne (Dir.ne_inode hentry h)]

theorem inv_caller {s t : State C A} {c : C} (h : Inv s) (hstep : callerStep s c = some t) : Inv t := by
  have hknows := h.knows c
  have hc : s.caller c ≠ .idle := fun hidle => by simp [callerStep, hidle] at hstep
  cases hpc : s.caller c with
  | idle =>
    simp only [callerStep, hpc] at hstep
    cases hstep
  | forking args =>
    simp only [callerStep, hpc] at hstep
    cases hstep
  | checking args =>
    simp only [callerStep, hpc] at hstep
    rw [hpc] at hknows
    obtain rfl := Option.some.inj hstep
    cases hp : s.dir.entry .pidfile with
    | some i => exact h.goes hc rfl rfl rfl (.inr rfl) hknows fun hn => (by cases hn)
    | none =>
      -- a daemon's pid would be in the file
      have hjobs : s.jobs = [] := List.eq_nil_iff_forall_not_mem.2 fun j hj => by
        have hpid := hknows j hj
        rw [State.recorded, hp] at hpid
        cases hpid
      exact h.goes hc rfl rfl rfl (.inr rfl) hjobs fun hn => (by cases hn)
  | reading args =>
    simp only [callerStep, hpc] at hstep
    rw [hpc] at hknows
    split at hstep
    · next pid hp =>
      obtain rfl := Option.some.inj hstep
      refine h.goes hc rfl rfl rfl (.inr rfl) ⟨hknows, fun j hj => ?_⟩ fun hn => (by cases hn)
      have hpid := hknows j hj
      rw [hp] at hpid
      exact (Option.some.inj (Option.some.inj hpid)).symm
    · obtain rfl := Option.some.inj hstep
      exact h.goes hc rfl rfl rfl (.inr rfl) trivial fun _ => hknows
    · obtain rfl := Option.some.inj hstep
      exact h.goes hc rfl rfl rfl (.inr rfl) trivial fun _ => hknows
  | probing args pid =>
    simp only [callerStep, hpc] at hstep
    rw [hpc] at hknows
    obtain rfl := Option.some.inj hstep
    obtain ⟨hrecorded, hpid⟩ := hknows
    cases hexists : processExists s.table pid with
    | true => exact h.goes hc rfl rfl rfl (.inr rfl) trivial fun _ => hrecorded
    | false =>
      have hjobs : s.jobs = [] := List.eq_nil_iff_forall_not_mem.2 fun j hj => by
        have halive := (h.alive j hj).exists
        rw [hpid j hj, hexists] at halive
        cases halive
      exact h.goes hc rfl rfl rfl (.inr rfl) hjobs fun hn => (by cases hn)
  | clearing args =>
    simp only [callerStep, hpc] at hstep
    rw [hpc] at hknows
    obtain rfl := Option.some.inj hstep
    exact h.goes hc rfl rfl rfl (.inl hknows) hknows fun hn => (by cases hn)
  | caching args =>
    simp only [callerStep, hpc] at hstep
    rw [hpc] at hknows
    obtain rfl := Option.some.inj hstep
    refine h.goes hc rfl rfl rfl (.inl hknows) ⟨hknows, ?_⟩ fun hn => (by cases hn)
    exact (Dir.entry_create _ _ _).trans (if_pos rfl)
  | dumping args inode =>
    simp only [callerStep, hpc] at hstep
    rw [hpc] at hknows
    obtain rfl := Option.some.inj hstep
    obtain ⟨hjobs, hentry⟩ := hknows
    refine h.goes hc rfl rfl rfl (.inl hjobs) ⟨hjobs, ?_⟩ fun hn => (by cases hn)
    simp [State.cached, State.goto, hentry]
  | spawning args =>
    simp only [callerStep, hpc] at hstep
    rw [hpc] at hknows
    obtain rfl := Option.some.inj hstep
    cases hentry : s.dir.entry .argcache with
    | some i => exact h.goes hc rfl rfl rfl (.inr rfl) hknows fun hn => (by cases hn)
    | none => exact h.goes hc rfl rfl rfl (.inr rfl) trivial fun _ => recorded_nil hknows.1
  | opening pid =>
    simp only [callerStep, hpc] at hstep
    rw [hpc] at hknows
    obtain rfl := Option.some.inj hstep
    refine h.goes hc rfl rfl rfl (.inr (cached_truncate s JobFile.noConfusion)) ⟨?_, hknows⟩ fun hn => (by cases hn)
    exact (Dir.entry_create _ _ _).trans (if_pos rfl)
  | writing pid inode =>
    simp only [callerStep, hpc] at hstep
    rw [hpc] at hknows
    obtain rfl := Option.some.inj hstep
    obtain ⟨hentry, hpid⟩ := hknows
    refine h.goes hc rfl rfl rfl (.inr rfl) (fun j hj => ?_) fun hn => (by cases hn)
    rw [← hpid j hj]
    simp [State.goto, hentry]
  | placing =>
    simp only [callerStep, hpc] at hstep
    rw [hpc] at hknows
    split at hstep
    · obtain rfl := Option.some.inj hstep
      refine h.goes hc rfl rfl rfl (.inr ?_) trivial fun _ j hj => ?_
      · simp [State.cached, State.goto, Dir.entry_rename]
      · simpa [State.recorded, State.goto, Dir.entry_rename] using hknows j hj
    · next hnone =>
      obtain rfl := Option.some.inj hstep
      refine h.goes hc rfl rfl rfl (.inr rfl) trivial fun _ j hj => ?_
      have hpid := hknows j hj
      rw [hnone] at hpid
      cases hpid

theorem inv_fork {s t : State C A} {c : C} (h : Inv s) {pid : Pid} (hstep : step s (.fork c pid) = some t) : Inv t := by
  have hknows := h.knows c
  simp only [step] at hstep
  split at hstep
  · next args hpc =>
    rw [hpc] at hknows
    obtain ⟨hjobs, hcache⟩ := hknows
    have hc : s.caller c ≠ .idle := by
      rw [hpc]
      nofun
    obtain ⟨u, hu, rfl⟩ := Option.map_eq_some_iff.1 hstep
    rw [hjobs, List.nil_append]
    -- the other calls are idle, as they were
    have hbefore : Inv (s.goto c (.opening pid)) := by
      refine h.goes hc rfl rfl rfl (.inr rfl) (fun j hj => ?_) fun hn => (by cases hn)
      replace hj : j ∈ s.jobs := hj
      rw [hjobs] at hj
      cases hj
    refine ⟨hbefore.apart, Nat.le_refl _, fun j hj => ?_, fun j hj => ?_, fun d => ?_, fun hall => ?_⟩
    · rw [List.mem_singleton.1 hj]
      exact Table.newcomer_start hu
    · rw [List.mem_singleton.1 hj]
      exact hcache
    · by_cases hd : d = c
      · subst hd
        show Knows _ (Function.update s.caller d (.opening pid) d)
        rw [Function.update_self]
        intro j hj
        rw [List.mem_singleton.1 hj]
      · have hidle : Function.update s.caller c (.opening pid) d = .idle := by
          rw [Function.update_of_ne hd]
          by_contra hne
          exact hd (h.apart d c hne hc)
        show Knows _ (Function.update s.caller c (.opening pid) d)
        rw [hidle]
        trivial
    · have := hall c
      replace this : Function.update s.caller c (.opening pid) c = .idle := this
      rw [Function.update_self] at this
      cases this
  · cases hstep

theorem inv_abort {s : State C A} {c : C} (h : Inv s) (hok : (s.caller c).records = false) : Inv (s.goto c .idle) := by
  by_cases hc : s.caller c = .idle
  · have hsame : s.goto c .idle = s := by rw [State.goto, ← hc, Function.update_eq_self]
    rwa [hsame]
  refine h.goes hc rfl rfl rfl (.inr rfl) trivial fun _ => ?_
  have hknows := h.knows c
  cases hpc : s.caller c with
  | idle => exact absurd hpc hc
  | checking args | reading args =>
    rw [hpc] at hknows
    exact hknows
  | probing args pid =>
    rw [hpc] at hknows
    exact hknows.1
  | clearing args | caching args =>
    rw [hpc] at hknows
    exact recorded_nil hknows
  | dumping args inode | spawning args | forking args =>
    rw [hpc] at hknows
    exact recorded_nil hknows.1
  | opening pid | writing pid inode | placing =>
    rw [hpc] at hok
    cases hok

omit [DecidableEq C] in
/-- The daemon that is there goes on or ends: what the call under way knows stays true. -/
theorem Knows.change {s t : State C A} {pc : CallerPc A} (h : Knows s pc) (hne : s.jobs ≠ []) (hpids : t.pids = s.pids)
    (hpidfile : t.jobs = [] ∨ t.dir.entry .pidfile = s.dir.entry .pidfile)
    (htmp : t.dir.entry .tmp = s.dir.entry .tmp) (hjobs : ∀ k ∈ t.jobs, ∃ j ∈ s.jobs, k.pid = j.pid) : Knows t pc := by
  have hrecorded (hr : Recorded s) : Recorded t := by
    intro k hk
    obtain ⟨j, hj, hkj⟩ := hjobs k hk
    rcases hpidfile with hnone | hsame
    · rw [hnone] at hk
      cases hk
    · rw [State.recorded, hsame, hpids, hkj]
      exact hr j hj
  have hpid {pid : Pid} (hp : ∀ j ∈ s.jobs, j.pid = pid) (k : Job A) (hk : k ∈ t.jobs) : k.pid = pid := by
    obtain ⟨j, hj, hkj⟩ := hjobs k hk
    exact hkj.trans (hp j hj)
  cases pc with
  | idle => trivial
  | checking args | reading args => exact hrecorded h
  | probing args pid => exact ⟨hrecorded h.1, hpid h.2⟩
  | clearing args | caching args => exact absurd h hne
  | dumping args inode | spawning args | forking args => exact absurd h.1 hne
  | opening pid => exact hpid h
  | writing pid inode => exact ⟨htmp.trans h.1, hpid h.2⟩
  | placing =>
    intro k hk
    obtain ⟨j, hj, hkj⟩ := hjobs k hk
    rw [htmp, hpids, hkj]
    exact h j hj

omit [DecidableEq C] in
/-- With one daemon at most, one that is there is all there are. -/
theorem Inv.only {s : State C A} (h : Inv s) {j : Job A} (hj : j ∈ s.jobs) : s.jobs = [j] := by
  have hone := h.one
  rcases hjobs : s.jobs with _ | ⟨k, _ | ⟨l, ks⟩⟩
  · rw [hjobs] at hj
    cases hj
  · rw [hjobs] at hj
    rw [List.mem_singleton.1 hj]
  · rw [hjobs] at hone
    simp at hone

omit [DecidableEq C] in
/-- The daemon ends, and leaves nothing to know. -/
theorem Inv.gone {s t : State C A} (h : Inv s) (hne : s.jobs ≠ []) (hcaller : t.caller = s.caller)
    (hpids : t.pids = s.pids) (htmp : t.dir.entry .tmp = s.dir.entry .tmp) (hjobs : t.jobs = []) : Inv t := by
  have hnone : ∀ k, k ∉ t.jobs := fun k hk => by
    rw [hjobs] at hk
    cases hk
  refine ⟨?_, ?_, fun k hk => absurd hk (hnone k), fun k hk => absurd hk (hnone k), fun c => ?_, fun _ => recorded_nil hjobs⟩
  · rw [hcaller]
    exact h.apart
  · rw [hjobs]
    exact Nat.zero_le _
  · rw [hcaller]
    exact (h.knows c).change hne hpids (.inl hjobs) htmp fun k hk => absurd hk (hnone k)

omit [DecidableEq C] in
/-- The daemon goes on. -/
theorem Inv.on {s t : State C A} (h : Inv s) {j k : Job A} (hj : j ∈ s.jobs) (hcaller : t.caller = s.caller)
    (htable : t.table = s.table) (hpids : t.pids = s.pids) (hpidfile : t.dir.entry .pidfile = s.dir.entry .pidfile)
    (htmp : t.dir.entry .tmp = s.dir.entry .tmp) (hjobs : t.jobs = [k]) (hserial : k.serial = j.serial)
    (hpid : k.pid = j.pid) (hk : Meant t.cached k) : Inv t := by
  have hsame : ∀ l ∈ t.jobs, ∃ i ∈ s.jobs, l.pid = i.pid := by
    intro l hl
    rw [hjobs] at hl
    exact ⟨j, hj, by rw [List.mem_singleton.1 hl, hpid]⟩
  refine ⟨?_, ?_, fun l hl => ?_, fun l hl => ?_, fun c => ?_, fun hall l hl => ?_⟩
  · rw [hcaller]
    exact h.apart
  · rw [hjobs]
    exact Nat.le_refl _
  · rw [hjobs] at hl
    rw [List.mem_singleton.1 hl, Alive, hserial, hpid, htable]
    exact h.alive j hj
  · rw [hjobs] at hl
    rw [List.mem_singleton.1 hl]
    exact hk
  · rw [hcaller]
    exact (h.knows c).change (List.ne_nil_of_mem hj) hpids (.inr hpidfile) htmp hsame
  · rw [hcaller] at hall
    rw [hjobs] at hl
    rw [State.recorded, hpidfile, hpids, List.mem_singleton.1 hl, hpid]
    exact h.recorded hall j hj

theorem inv_job {s t : State C A} (h : Inv s) {serial : Nat} (hstep : step s (.job serial) = some t) : Inv t := by
  obtain ⟨j, hfind, rfl⟩ := Option.map_eq_some_iff.1 hstep
  have hj := List.mem_of_find?_eq_some hfind
  have hne : s.jobs ≠ [] := List.ne_nil_of_mem hj
  have hmeant := h.meant j hj
  have hset (k : Job A) (hk : k.serial = j.serial) : setJob s.jobs k = [k] := by
    rw [h.only hj, setJob, List.map_singleton, if_pos hk.symm]
  have hdrop : dropJob s.jobs j.serial = [] := by
    rw [h.only hj]
    simp [dropJob]
  unfold Meant at hmeant
  unfold jobStep
  cases hpc : j.pc with
  | loading =>
    rw [hpc] at hmeant
    simp only [hmeant]
    exact h.on hj rfl rfl rfl rfl rfl (hset _ rfl) rfl rfl rfl
  | unlinking args =>
    rw [hpc] at hmeant
    cases hcache : s.dir.entry .argcache with
    | some i =>
      refine h.on hj rfl rfl rfl ?_ ?_ (hset _ rfl) rfl rfl hmeant
      · simp [Dir.entry_unlink]
      · simp [Dir.entry_unlink]
    | none => exact h.gone hne rfl rfl rfl hdrop
  | running args => exact h.gone hne rfl rfl (by simp [Dir.entry_unlink]) hdrop

theorem inv_step (s : State C A) (a : Action C A) (t : State C A) (hok : Orderly s a) (h : Inv s)
    (hstep : step s a = some t) : Inv t := by
  cases a with
  | call c args =>
    simp only [step] at hstep
    split at hstep
    · obtain rfl := Option.some.inj hstep
      have hidle : ∀ d, d ≠ c → Function.update s.caller c (.checking args) d = .idle := fun d hd => by
        rw [Function.update_of_ne hd]
        exact hok d
      have honly : ∀ d, Function.update s.caller c (.checking args) d ≠ .idle → d = c := fun d hd => by
        by_contra hne
        exact hd (hidle d hne)
      refine ⟨fun d e hd he => (honly d hd).trans (honly e he).symm, h.one, h.alive, h.meant, fun d => ?_, fun _ => ?_⟩
      · by_cases hd : d = c
        · subst hd
          show Knows _ (Function.update s.caller d (.checking args) d)
          rw [Function.update_self]
          exact h.recorded hok
        · show Knows _ (Function.update s.caller c (.checking args) d)
          rw [hidle d hd]
          trivial
      · exact h.recorded hok
    · cases hstep
  | caller c => exact inv_caller h hstep
  | fork c pid => exact inv_fork h hstep
  | abort c =>
    obtain rfl := Option.some.inj hstep
    exact inv_abort h hok
  | job serial => exact inv_job h hstep
  | start pid permitted =>
    obtain ⟨u, hu, rfl⟩ := Option.map_eq_some_iff.1 hstep
    exact ⟨h.apart, h.one, fun j hj => Table.mem_start hu (h.alive j hj), h.meant, h.knows, h.recorded⟩
  | exit pid =>
    obtain rfl := Option.some.inj hstep
    by_cases hpid : ∃ j ∈ s.jobs, j.pid = pid
    · -- the daemon is killed
      obtain ⟨j, hj, rfl⟩ := hpid
      have hnone : s.jobs.filter (·.pid ≠ j.pid) = [] := by
        rw [h.only hj]
        simp
      exact h.gone (List.ne_nil_of_mem hj) rfl rfl rfl hnone
    · have hall : s.jobs.filter (·.pid ≠ pid) = s.jobs :=
        List.filter_eq_self.2 fun j hj => by simpa using fun heq => hpid ⟨j, hj, heq⟩
      rw [hall]
      exact ⟨h.apart, h.one, fun j hj => Table.mem_exit (h.alive j hj) fun heq => hpid ⟨j, hj, heq⟩, h.meant, h.knows,
        h.recorded⟩
  | reap pid =>
    obtain rfl := Option.some.inj hstep
    exact ⟨h.apart, h.one, fun j hj => Table.mem_reap (h.alive j hj) rfl, h.meant, h.knows, h.recorded⟩

/-- Of calls of which none begins while another is under way, and none is cut off between
the fork and the record of the pid: there is one daemon at most, it runs the command that
its call was given, and while no call is under way the pid in the file leads to it and to
no other process. The files may be left with anything in them, and all else is killed at
any time. -/
theorem one_daemon {t : Table Bool} {d : Dir JobFile} {pids : Nat → Option Pid} {args : Nat → Option A}
    {as : List (Action C A)} {s : State C A} (hrun : exec step (start t d pids args) as = some s)
    (horderly : ∀ pre a post u, as = pre ++ a :: post → exec step (start t d pids args) pre = some u → Orderly u a) :
    s.jobs.length ≤ 1 ∧ (∀ j ∈ s.jobs, ∀ args, j.pc = .running args → args = j.args) ∧
      ((∀ c, s.caller c = .idle) → ∀ j ∈ s.jobs, jobPid s = some j.pid ∧
        s.table.find j.pid = some ⟨j.serial, j.pid, true, false⟩) := by
  have hi := exec_keeps_when inv_step (inv_start t d pids args) hrun horderly
  refine ⟨hi.one, fun j hj args hpc => ?_, fun hidle j hj => ?_⟩
  · have hmeant := hi.meant j hj
    unfold Meant at hmeant
    rwa [hpc] at hmeant
  · refine ⟨?_, (hi.alive j hj).find⟩
    rw [jobPid, hi.recorded hidle j hj, Option.join_some, Option.filter_some, if_pos (hi.alive j hj).exists]

end Steps

/-! ## Calls one after the other, and calls that overlap -/

/-- No process is there yet. -/
def noProcs : Table Bool where
  procs := []
  started := 0
  pids_distinct := List.nodup_nil
  serials_distinct := List.nodup_nil
  serial_lt _ hp := absurd hp List.not_mem_nil

/-- The pid of a process that is gone is in the pid file. -/
def stale : State (Fin 2) Nat := start noProcs (Dir.empty.create .pidfile) (fun _ => some 4711) fun _ => none

/-- A call finds that pid, and starts a daemon; another call finds that it runs. -/
def twoCalls : List (Action (Fin 2) Nat) :=
  [[.call 0 1], List.replicate 7 (.caller 0), [.fork 0 77, .job 0], List.replicate 3 (.caller 0),
    [.job 0, .call 1 2], List.replicate 3 (.caller 1)].flatten

instance (s : State (Fin 2) Nat) (a : Action (Fin 2) Nat) : Decidable (Orderly s a) :=
  match a with
  | .call _ _ => inferInstanceAs (Decidable (∀ c, s.caller c = .idle))
  | .abort c => inferInstanceAs (Decidable ((s.caller c).records = false))
  | .caller _ | .fork _ _ | .job _ | .start _ _ | .exit _ | .reap _ => .isTrue trivial

theorem one_daemon_twoCalls : ∃ s, exec step stale twoCalls = some s ∧ s.jobs = [⟨0, 77, 1, .running 1⟩] ∧
    jobPid s = some 77 := by
  have hrun : (exec step stale twoCalls).map (fun s => (s.jobs, s.caller 0, s.caller 1)) =
      some ([⟨0, 77, 1, .running 1⟩], .idle, .idle) := by decide +kernel
  obtain ⟨s, hs, hend⟩ := Option.map_eq_some_iff.1 hrun
  simp only [Prod.mk.injEq] at hend
  obtain ⟨hjobs, h0, h1⟩ := hend
  -- no call of the run begins while the other is under way
  have hzero : tally step (fun s a => if Orderly s a then 0 else 1) stale twoCalls = 0 := by decide +kernel
  have horderly : ∀ pre a post u, twoCalls = pre ++ a :: post → exec step stale pre = some u → Orderly u a := by
    intro pre a post u heq hu
    simpa using (tally_eq_zero hs).1 hzero pre a post u heq hu
  have hidle : ∀ c, s.caller c = .idle := Fin.forall_fin_two.2 ⟨h0, h1⟩
  have hmem : (⟨0, 77, 1, .running 1⟩ : Job Nat) ∈ s.jobs := by
    rw [hjobs]
    exact List.mem_singleton_self _
  exact ⟨s, hs, hjobs, ((one_daemon hs horderly).2.2 hidle _ hmem).1⟩

/-- A second call looks before the first one's daemon is in the pid file. -/
def overlapping : List (Action (Fin 2) Nat) :=
  [[.call 0 1, .caller 0, .call 1 2, .caller 1], List.replicate 3 (.caller 0), [.fork 0 77, .job 0, .job 0],
    List.replicate 3 (.caller 1), [.fork 1 78, .job 1, .job 1]].flatten

/-- Then both daemons run. -/
example : (exec step (start noProcs Dir.empty (fun _ => none) fun _ => none) overlapping).map
    (fun s => s.jobs.map Job.pc) = some [.running 1, .running 2] := by decide +kernel

end ProGuide.Workflow.Background
