import Mathlib.Data.List.Nodup
/-!
# Process tables

Processes come and go, and the pid that one of them frees is given to another.
What names a process for good is its serial number. A pid still names the
process it named before exactly when it was not given to a newcomer.
-/

namespace ProGuide.Lib.ProcTable

abbrev Pid := Nat

/-- A process: its number in the order of starts, its pid, and what else is known
of it. One that has exited keeps its pid until it is reaped. -/
structure Proc (α : Type) where
  serial : Nat
  pid : Pid
  info : α
  exited : Bool
  deriving DecidableEq, Repr

/-- The processes that are there, and how many were ever started. -/
structure Table (α : Type) where
  procs : List (Proc α)
  started : Nat
  pids_distinct : (procs.map Proc.pid).Nodup
  serials_distinct : (procs.map Proc.serial).Nodup
  serial_lt : ∀ p ∈ procs, p.serial < started

namespace Table

variable {α : Type}

def find (t : Table α) (pid : Pid) : Option (Proc α) := t.procs.find? (·.pid = pid)

/-- The process with this serial number is there and has not exited. -/
def Running (t : Table α) (serial : Nat) : Prop := ∃ p ∈ t.procs, p.serial = serial ∧ p.exited = false

instance (t : Table α) (serial : Nat) : Decidable (t.Running serial) := by unfold Running; infer_instance

theorem mem_of_find {t : Table α} {pid : Pid} {p : Proc α} (h : t.find pid = some p) : p ∈ t.procs ∧ p.pid = pid :=
  ⟨List.mem_of_find?_eq_some h, by simpa using List.find?_some h⟩

theorem eq_of_pid {t : Table α} {p q : Proc α} (hp : p ∈ t.procs) (hq : q ∈ t.procs) (h : p.pid = q.pid) : p = q :=
  List.inj_on_of_nodup_map t.pids_distinct hp hq h

theorem find_of_mem {t : Table α} {p : Proc α} (hp : p ∈ t.procs) : t.find p.pid = some p := by
  cases h : t.find p.pid with
  | none =>
    have := List.find?_eq_none.1 h p hp
    simp at this
  | some q =>
    obtain ⟨hq, hpid⟩ := mem_of_find h
    rw [eq_of_pid hq hp hpid]

/-! ## What can happen -/

/-- A process starts, under a pid that is free. -/
def start (t : Table α) (pid : Pid) (info : α) : Option (Table α) :=
  if h : pid ∈ t.procs.map Proc.pid then none
  else some {
    procs := t.procs ++ [⟨t.started, pid, info, false⟩]
    started := t.started + 1
    pids_distinct := by
      rw [List.map_append]
      exact List.Nodup.append t.pids_distinct (List.nodup_singleton _) (by simpa using h)
    serials_distinct := by
      rw [List.map_append]
      refine List.Nodup.append t.serials_distinct (List.nodup_singleton _) ?_
      simp only [List.map_cons, List.map_nil, List.disjoint_singleton, List.mem_map, not_exists, not_and]
      exact fun p hp => Nat.ne_of_lt (t.serial_lt p hp)
    serial_lt := by
      intro p hp
      rcases List.mem_append.1 hp with hp | hp
      · exact Nat.lt_succ_of_lt (t.serial_lt p hp)
      · rw [List.mem_singleton.1 hp]
        exact Nat.lt_succ_self _ }

/-- What the exit of the process with this pid does to a process. -/
def exitOne (pid : Pid) (p : Proc α) : Proc α := if p.pid = pid then { p with exited := true } else p

@[simp] theorem exitOne_pid (pid : Pid) (p : Proc α) : (exitOne pid p).pid = p.pid := by
  unfold exitOne
  split <;> rfl

@[simp] theorem exitOne_serial (pid : Pid) (p : Proc α) : (exitOne pid p).serial = p.serial := by
  unfold exitOne
  split <;> rfl

theorem exited_exitOne {pid : Pid} {p : Proc α} (h : p.exited = true) : (exitOne pid p).exited = true := by
  unfold exitOne
  split
  · rfl
  · exact h

/-- The process with this pid exits, if there is one. -/
def exit (t : Table α) (pid : Pid) : Table α where
  procs := t.procs.map (exitOne pid)
  started := t.started
  pids_distinct := by simpa [Function.comp_def] using t.pids_distinct
  serials_distinct := by simpa [Function.comp_def] using t.serials_distinct
  serial_lt := by simpa using t.serial_lt

/-- The process with this pid is reaped, if it has exited: its pid is free. -/
def reap (t : Table α) (pid : Pid) : Table α where
  procs := t.procs.filter fun p => !(p.pid = pid && p.exited)
  started := t.started
  pids_distinct := t.pids_distinct.sublist (List.filter_sublist.map _)
  serials_distinct := t.serials_distinct.sublist (List.filter_sublist.map _)
  serial_lt p hp := t.serial_lt p (List.mem_of_mem_filter hp)

end Table

/-! ## What stays -/

namespace Table

variable {α : Type}

/-- Who is there still is when another starts. -/
theorem mem_start {t u : Table α} {pid : Pid} {info : α} (h : t.start pid info = some u) {p : Proc α}
    (hp : p ∈ t.procs) : p ∈ u.procs := by
  unfold start at h
  split at h
  · cases h
  · obtain rfl := Option.some.inj h
    exact List.mem_append_left _ hp

theorem newcomer_start {t u : Table α} {pid : Pid} {info : α} (h : t.start pid info = some u) :
    ⟨t.started, pid, info, false⟩ ∈ u.procs := by
  unfold start at h
  split at h
  · cases h
  · obtain rfl := Option.some.inj h
    exact List.mem_append_right _ (List.mem_singleton_self _)

theorem mem_exit {t : Table α} {pid : Pid} {p : Proc α} (hp : p ∈ t.procs) (hne : p.pid ≠ pid) :
    p ∈ (t.exit pid).procs := by
  refine List.mem_map.2 ⟨p, hp, ?_⟩
  rw [exitOne, if_neg hne]

/-- A process that has not exited is not reaped. -/
theorem mem_reap {t : Table α} {pid : Pid} {p : Proc α} (hp : p ∈ t.procs) (hexit : p.exited = false) :
    p ∈ (t.reap pid).procs := by
  refine List.mem_filter.2 ⟨hp, ?_⟩
  rw [hexit, Bool.and_false]
  rfl

end Table

/-! ## Two states of a table -/

variable {α : Type}

/-- `u` comes after `t`: what is in `u` and had started by `t` was in `t`, under
the same pid, and not exited unless it still is. -/
structure Later (t u : Table α) : Prop where
  started_le : t.started ≤ u.started
  kept : ∀ q ∈ u.procs, q.serial < t.started →
    ∃ p ∈ t.procs, p.serial = q.serial ∧ p.pid = q.pid ∧ (p.exited = true → q.exited = true)

theorem Later.refl (t : Table α) : Later t t := ⟨Nat.le_refl _, fun q hq _ => ⟨q, hq, rfl, rfl, id⟩⟩

theorem Later.trans {t u v : Table α} (htu : Later t u) (huv : Later u v) : Later t v := by
  refine ⟨Nat.le_trans htu.started_le huv.started_le, fun q hq hlt => ?_⟩
  obtain ⟨p, hp, hserial, hpid, hexit⟩ := huv.kept q hq (Nat.lt_of_lt_of_le hlt htu.started_le)
  obtain ⟨o, ho, hserial', hpid', hexit'⟩ := htu.kept p hp (by rw [hserial]; exact hlt)
  exact ⟨o, ho, hserial'.trans hserial, hpid'.trans hpid, fun h => hexit (hexit' h)⟩

theorem later_start {t u : Table α} {pid : Pid} {info : α} (h : t.start pid info = some u) : Later t u := by
  unfold Table.start at h
  split at h
  · cases h
  · obtain rfl := Option.some.inj h
    refine ⟨Nat.le_succ _, fun q hq hlt => ?_⟩
    rcases List.mem_append.1 hq with hq | hq
    · exact ⟨q, hq, rfl, rfl, id⟩
    · -- the newcomer has the next serial number
      rw [List.mem_singleton.1 hq] at hlt
      exact absurd hlt (Nat.lt_irrefl _)

theorem later_exit (t : Table α) (pid : Pid) : Later t (t.exit pid) := by
  refine ⟨Nat.le_refl _, fun q hq _ => ?_⟩
  obtain ⟨p, hp, rfl⟩ := List.mem_map.1 hq
  exact ⟨p, hp, by simp, by simp, Table.exited_exitOne⟩

theorem later_reap (t : Table α) (pid : Pid) : Later t (t.reap pid) :=
  ⟨Nat.le_refl _, fun q hq _ => ⟨q, List.mem_of_mem_filter hq, rfl, rfl, id⟩⟩

/-- A process that runs later, and is no newcomer, was running before. -/
theorem Later.running {t u : Table α} (h : Later t u) {serial : Nat} (hr : u.Running serial)
    (hlt : serial < t.started) : t.Running serial := by
  obtain ⟨q, hq, rfl, hexit⟩ := hr
  obtain ⟨p, hp, hserial, -, hexited⟩ := h.kept q hq hlt
  refine ⟨p, hp, hserial, ?_⟩
  rw [Bool.eq_false_iff]
  intro hp'
  rw [hexited hp'] at hexit
  cases hexit

/-- A pid names the process it named before exactly when its holder is no
newcomer. -/
theorem Later.same_iff {t u : Table α} (h : Later t u) {p q : Proc α} (hp : p ∈ t.procs) (hq : q ∈ u.procs)
    (hpid : p.pid = q.pid) : q.serial = p.serial ↔ q.serial < t.started := by
  constructor
  · intro heq
    rw [heq]
    exact t.serial_lt p hp
  · intro hlt
    obtain ⟨o, ho, hserial, hpid', -⟩ := h.kept q hq hlt
    obtain rfl := Table.eq_of_pid ho hp (hpid'.trans hpid.symm)
    exact hserial.symm

end ProGuide.Lib.ProcTable
