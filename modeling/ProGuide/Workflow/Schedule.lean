import ProGuide.Workflow.Update
/-!
# When updates are looked for

A script with an update frequency looks for an update in the background when it starts,
if automatic updates are on and the status in the cache is not fresh. An update that is
asked for is looked for at once and installed in the background. Scripts start one after
the other, and the clock never goes back.
-/
open ProGuide.Lib.Runs

namespace ProGuide.Workflow.Schedule

/-! ## The code -/

/-- The arguments of a check in the background. -/
structure Job where
  version : Str
  prereleases : Bool
  deriving DecidableEq, Repr

/-- The update, when its status was written, the two settings, the check that is under
way, whether an install is, and the files opened so far, each with its URL. -/
structure State where
  update : UpdateState
  written : Nat
  autoupdate : Bool
  prereleases : Bool
  job : Option Job
  installing : Bool
  opened : List (Str × Str)

inductive Action where
  | publish (releases : List Release)
  | wait (time : Nat)
  /-- Another version is put in, by its text. -/
  | replace (text : Str)
  /-- `workflow:autoupdate` and `workflow:noautoupdate`. -/
  | autoupdate (on : Bool)
  /-- `workflow:prereleases` and `workflow:noprereleases`. -/
  | prereleases (on : Bool)
  /-- A script starts whose `frequency` is this many days. -/
  | run (frequency : Nat)
  /-- The check in the background ends, or raises. -/
  | finish (alfred : Option Version) (reached : Bool)
  /-- It is killed. -/
  | die
  | startUpdate (alfred : Option Version) (reached : Bool)
  /-- The install in the background. -/
  | install (fetched : Bool)

/-- A day in microseconds. -/
def day : Nat := 86400 * 1000000

/-- `cached_data_age` of the status. -/
def State.age (s : State) : Nat := if s.update.status.isSome then s.update.clock - s.written else 0

/-- `cached_data_fresh`: a status that was written just now is not. -/
def State.fresh (s : State) (max_age : Nat) : Bool := s.age ≠ 0 && s.age < max_age

/-- Whether a script that starts runs a check. No second one runs while one is under way. -/
def State.starts (s : State) (frequency : Nat) : Bool :=
  s.autoupdate && !s.fresh (frequency * day) && s.job.isNone

/-- `Workflow.check_update`. -/
def State.checkUpdate (s : State) (frequency : Nat) : State :=
  if s.starts frequency then { s with job := some ⟨s.update.installed.str, s.prereleases⟩ } else s

/-- `check_update` of `update.py`, unless it raises. -/
def State.check (s : State) (job : Job) (alfred : Option Version) (reached : Bool) : Option (Bool × State) :=
  (Version.parse job.version).toOption.bind fun current =>
    (getReleases s.update reached).map fun r =>
      let found := Workflow.checkUpdate r.1 current job.prereleases alfred
      (found.1, { s with update := { r.2 with status := some found.2 }, written := s.update.clock })

/-- `Workflow.start_update`. -/
def State.startUpdate (s : State) (alfred : Option Version) (reached : Bool) : State :=
  match s.check ⟨s.update.installed.str, s.prereleases⟩ alfred reached with
  | none => s
  | some (found, t) => { t with installing := t.installing || found }

/-- The end of a check in the background. -/
def State.finish (s : State) (job : Job) (alfred : Option Version) (reached : Bool) : State :=
  match s.check job alfred reached with
  | none => { s with job := none }
  | some (_, t) => { t with job := none }

/-- The file that an install opened. -/
def openedFile : Installed → List (Str × Str)
  | .opened url filename => [(url, filename)]
  | .nothing | .raised => []

/-- `install_update`. The status is written when a file was opened. -/
def State.install (s : State) (fetched : Bool) : State :=
  let result := installUpdate s.update.status fetched
  { s with
    update := { s.update with status := result.2 }
    written := if openedFile result.1 = [] then s.written else s.update.clock
    installing := false
    opened := s.opened ++ openedFile result.1 }

def State.wait (s : State) (time : Nat) : State := { s with update := { s.update with clock := s.update.clock + time } }

def step (s : State) : Action → Option State
  | .publish rs => some { s with update := { s.update with releases := rs } }
  | .wait time => some (s.wait time)
  | .replace text => (Version.parse text).toOption.map fun v => { s with update := { s.update with installed := v } }
  | .autoupdate on => some { s with autoupdate := on }
  | .prereleases on => some { s with prereleases := on }
  | .run frequency => some (s.checkUpdate frequency)
  | .finish alfred reached => s.job.map fun job => s.finish job alfred reached
  | .die => s.job.map fun _ => { s with job := none }
  | .startUpdate alfred reached => some (s.startUpdate alfred reached)
  | .install fetched => if s.installing then some (s.install fetched) else none

/-- A workflow that was just put in. -/
def start (version : Version) : State := ⟨neverChecked version, 0, true, false, none, false, []⟩

/-! ## What a check does -/

/-- Looking at the releases changes the cached response alone. -/
theorem getReleases_frame {s u : UpdateState} {reached : Bool} {rs : List Release}
    (h : getReleases s reached = some (rs, u)) :
    u.clock = s.clock ∧ u.installed = s.installed ∧ u.releases = s.releases ∧
      (u.response = s.response ∨ u.response = some (s.clock, s.releases)) := by
  obtain ⟨w, rs', -, -, hg⟩ | ⟨-, hg⟩ | ⟨-, hg⟩ := getReleases_cases s reached
  · obtain ⟨-, rfl⟩ := Prod.mk.inj (Option.some.inj (hg.symm.trans h))
    exact ⟨rfl, rfl, rfl, Or.inl rfl⟩
  · obtain ⟨-, rfl⟩ := Prod.mk.inj (Option.some.inj (hg.symm.trans h))
    exact ⟨rfl, rfl, rfl, Or.inr rfl⟩
  · rw [hg] at h
    cases h

/-- A check that does not raise writes the status, and else the cached response alone. -/
theorem check_writes {s t : State} {job : Job} {alfred : Option Version} {reached found : Bool}
    (h : s.check job alfred reached = some (found, t)) :
    ∃ u : UpdateState, t = { s with update := u, written := s.update.clock } ∧ u.status ≠ none ∧
      u.clock = s.update.clock ∧ u.installed = s.update.installed ∧ u.releases = s.update.releases ∧
      (u.response = s.update.response ∨ u.response = some (s.update.clock, s.update.releases)) := by
  obtain ⟨current, -, h⟩ := Option.bind_eq_some_iff.1 h
  obtain ⟨r, hr, h⟩ := Option.map_eq_some_iff.1 h
  obtain ⟨-, rfl⟩ := Prod.mk.inj h
  obtain ⟨hclock, hinstalled, hreleases, hresponse⟩ := getReleases_frame hr
  exact ⟨_, rfl, Option.some_ne_none _, hclock, hinstalled, hreleases, hresponse⟩

/-! ## What a step does -/

/-- An install that opens no file leaves the status, and one that does writes it. -/
theorem installUpdate_cases (status : Option Status) (fetched : Bool) :
    (openedFile (installUpdate status fetched).1 = [] ∧ (installUpdate status fetched).2 = status) ∨
      (openedFile (installUpdate status fetched).1 ≠ [] ∧ (installUpdate status fetched).2 = some noUpdate) := by
  unfold installUpdate
  split
  · exact Or.inl ⟨rfl, rfl⟩
  · split
    · split
      · exact Or.inl ⟨rfl, rfl⟩
      · split
        · exact Or.inl ⟨rfl, rfl⟩
        · split
          · exact Or.inr ⟨List.cons_ne_nil _ _, rfl⟩
          · exact Or.inl ⟨rfl, rfl⟩
    · exact Or.inl ⟨rfl, rfl⟩

/-- The check in the background ends. -/
def Action.ends : Action → Bool
  | .finish _ _ | .die => true
  | _ => false

/-- What a step does to the clock, the version, the two files in the cache, and the check
under way. -/
structure Stepped (s : State) (a : Action) (t : State) : Prop where
  clock : s.update.clock ≤ t.update.clock
  read : s.update.installed.Read → t.update.installed.Read
  response : t.update.response = s.update.response ∨
    t.update.response = some (s.update.clock, s.update.releases)
  status : (t.update.status = s.update.status ∧ t.written = s.written) ∨
    (t.update.status ≠ none ∧ t.written = t.update.clock)
  job : a.ends = false → ∀ job, s.job = some job → t.job = some job

/-- Time passes, or things change that no check depends on. -/
theorem Stepped.later {s t : State} {a : Action} (hclock : s.update.clock ≤ t.update.clock)
    (hinstalled : t.update.installed = s.update.installed) (hresponse : t.update.response = s.update.response)
    (hstatus : t.update.status = s.update.status) (hwritten : t.written = s.written)
    (hjob : a.ends = false → ∀ job, s.job = some job → t.job = some job) : Stepped s a t :=
  ⟨hclock, fun h => hinstalled ▸ h, Or.inl hresponse, Or.inl ⟨hstatus, hwritten⟩, hjob⟩

/-- A check writes the status. -/
theorem Stepped.check {s t u : State} {a : Action} {job : Job} {alfred : Option Version} {reached found : Bool}
    (h : s.check job alfred reached = some (found, t)) (hupdate : u.update = t.update) (hwritten : u.written = t.written)
    (hjob : a.ends = false → ∀ job, s.job = some job → u.job = some job) : Stepped s a u := by
  obtain ⟨v, rfl, hsome, hclock, hinstalled, -, hresponse⟩ := check_writes h
  have hv : u.update = v := hupdate
  refine ⟨?_, ?_, ?_, Or.inr ⟨?_, ?_⟩, hjob⟩
  · rw [hv, hclock]
  · rw [hv, hinstalled]
    exact id
  · rw [hv]
    exact hresponse
  · rw [hv]
    exact hsome
  · rw [hv, hclock]
    exact hwritten

theorem step_cases {s t : State} {a : Action} (hstep : step s a = some t) : Stepped s a t := by
  cases a with
  | publish rs | autoupdate on | prereleases on =>
    obtain rfl := Option.some.inj hstep
    exact .later (Nat.le_refl _) rfl rfl rfl rfl fun _ _ h => h
  | wait time =>
    obtain rfl := Option.some.inj hstep
    exact .later (Nat.le_add_right _ _) rfl rfl rfl rfl fun _ _ h => h
  | replace text =>
    obtain ⟨v, hv, rfl⟩ := Option.map_eq_some_iff.1 hstep
    have hread : v.Read := by
      cases hp : Version.parse text with
      | error e =>
        rw [hp] at hv
        cases hv
      | ok u =>
        rw [hp] at hv
        obtain rfl := Option.some.inj hv
        exact parse_read hp
    exact ⟨Nat.le_refl _, fun _ => hread, Or.inl rfl, Or.inl ⟨rfl, rfl⟩, fun _ _ h => h⟩
  | run frequency =>
    obtain rfl := Option.some.inj hstep
    unfold State.checkUpdate
    split
    · next hstarts =>
      -- no script starts another check while one is under way
      refine .later (Nat.le_refl _) rfl rfl rfl rfl fun _ job hjob => ?_
      simp [State.starts, hjob] at hstarts
    · exact .later (Nat.le_refl _) rfl rfl rfl rfl fun _ _ h => h
  | finish alfred reached =>
    obtain ⟨job, -, rfl⟩ := Option.map_eq_some_iff.1 hstep
    unfold State.finish
    split
    · exact .later (Nat.le_refl _) rfl rfl rfl rfl fun h => (by cases h)
    · next hcheck => exact .check hcheck rfl rfl fun h => (by cases h)
  | die =>
    obtain ⟨job, -, rfl⟩ := Option.map_eq_some_iff.1 hstep
    exact .later (Nat.le_refl _) rfl rfl rfl rfl fun h => (by cases h)
  | startUpdate alfred reached =>
    obtain rfl := Option.some.inj hstep
    unfold State.startUpdate
    split
    · exact .later (Nat.le_refl _) rfl rfl rfl rfl fun _ _ h => h
    · next hcheck =>
      refine .check hcheck rfl rfl fun _ job hjob => ?_
      obtain ⟨v, rfl, -⟩ := check_writes hcheck
      exact hjob
  | install fetched =>
    simp only [step] at hstep
    split at hstep
    · obtain rfl := Option.some.inj hstep
      refine ⟨Nat.le_refl _, id, Or.inl rfl, ?_, fun _ _ h => h⟩
      unfold State.install
      rcases installUpdate_cases s.update.status fetched with ⟨hopened, hstatus⟩ | ⟨hopened, hstatus⟩
      · exact Or.inl ⟨hstatus, if_pos hopened⟩
      · have hsome : (installUpdate s.update.status fetched).2 ≠ none := by
          rw [hstatus]
          exact Option.some_ne_none _
        exact Or.inr ⟨hsome, if_neg hopened⟩
    · cases hstep

/-- The version installed is always one that was read from a text. -/
theorem reachable_read {version : Version} (hread : version.Read) {as : List Action} {s : State}
    (hrun : exec step (start version) as = some s) : s.update.installed.Read := by
  have hstep : ∀ (s : State) (a : Action) (t : State), s.update.installed.Read → step s a = some t →
      t.update.installed.Read := fun _ _ _ h hstep => (step_cases hstep).read h
  exact exec_keeps hstep hread hrun

theorem exec_clock {s u : State} {as : List Action} (hrun : exec step s as = some u) :
    s.update.clock ≤ u.update.clock := by
  have hstep : ∀ (t : State) (a : Action) (v : State), s.update.clock ≤ t.update.clock → step t a = some v →
      s.update.clock ≤ v.update.clock := fun _ _ _ h hstep => h.trans (step_cases hstep).clock
  exact exec_keeps hstep (Nat.le_refl _) hrun

/-- A check stays under way until it ends. -/
theorem exec_job {s u : State} {as : List Action} {job : Job} (hjob : s.job = some job)
    (has : ∀ a ∈ as, a.ends = false) (hrun : exec step s as = some u) : u.job = some job := by
  have hstep : ∀ (s : State) (a : Action) (t : State), a.ends = false → s.job = some job → step s a = some t →
      t.job = some job := fun _ _ _ ha h hstep => (step_cases hstep).job ha job h
  refine exec_keeps_when hstep hjob hrun fun pre a post t heq _ => has a ?_
  rw [heq]
  exact List.mem_append_right pre List.mem_cons_self

/-! ## How often a check is started -/

/-- The check under way ends here without a status: it is killed, or raises. -/
def State.fails (s : State) : Action → Prop
  | .die => True
  | .finish alfred reached => ∀ job, s.job = some job → s.check job alfred reached = none
  | _ => False

/-- In a run from a state with a check under way, that check leaves no status. -/
def Fails (s : State) (as : List Action) : Prop :=
  ∃ pre a post t, as = pre ++ a :: post ∧ (∀ b ∈ pre, b.ends = false) ∧ exec step s pre = some t ∧ t.fails a

/-- A check under way ends before there is none. -/
theorem exec_ends {s u : State} {as : List Action} {job : Job} (hjob : s.job = some job)
    (hrun : exec step s as = some u) (hu : u.job = none) :
    ∃ pre a post t, as = pre ++ a :: post ∧ (∀ b ∈ pre, b.ends = false) ∧ a.ends = true ∧
      exec step s pre = some t ∧ exec step t (a :: post) = some u := by
  induction as generalizing s with
  | nil =>
    obtain rfl := Option.some.inj hrun
    rw [hjob] at hu
    cases hu
  | cons a as ih =>
    cases ha : a.ends with
    | true => exact ⟨[], a, as, s, rfl, fun b hb => absurd hb List.not_mem_nil, ha, rfl, hrun⟩
    | false =>
      obtain ⟨t, ht, hrest⟩ := exec_cons hrun
      obtain ⟨pre, b, post, v, rfl, hpre, hb, hv, hlast⟩ := ih ((step_cases ht).job ha job hjob) hrest
      refine ⟨a :: pre, b, post, v, rfl, List.forall_mem_cons.2 ⟨ha, hpre⟩, hb, ?_, hlast⟩
      rw [exec, ht]
      exact hv

/-- A status was written at that time or later. -/
structure WrittenSince (time : Nat) (s : State) : Prop where
  status : s.update.status ≠ none
  since : time ≤ s.written
  before : s.written ≤ s.update.clock

theorem WrittenSince.step {time : Nat} {s t : State} {a : Action} (h : WrittenSince time s) (hstep : step s a = some t) :
    WrittenSince time t := by
  have hclock := (step_cases hstep).clock
  rcases (step_cases hstep).status with ⟨hstatus, hwritten⟩ | ⟨hstatus, hwritten⟩
  · refine ⟨?_, ?_, ?_⟩
    · rw [hstatus]
      exact h.status
    · rw [hwritten]
      exact h.since
    · rw [hwritten]
      exact h.before.trans hclock
  · refine ⟨hstatus, ?_, Nat.le_of_eq hwritten⟩
    rw [hwritten]
    exact (h.since.trans h.before).trans hclock

/-- A status that is not fresh was written just now, or as long ago as the frequency. -/
theorem stale_cases {s : State} {frequency : Nat} (hs : s.update.status ≠ none) (hsound : s.written ≤ s.update.clock)
    (hfresh : s.fresh (frequency * day) = false) :
    s.written = s.update.clock ∨ s.written + frequency * day ≤ s.update.clock := by
  have hsome : s.update.status.isSome = true := Option.isSome_iff_ne_none.2 hs
  simp only [State.fresh, State.age, if_pos hsome, Bool.and_eq_false_iff, decide_eq_false_iff_not, not_not,
    not_lt] at hfresh
  omega

/-- What it takes for a script to start a check. -/
theorem starts_iff {s : State} {frequency : Nat} : s.starts frequency = true ↔
    s.autoupdate = true ∧ s.fresh (frequency * day) = false ∧ s.job = none := by
  simp [State.starts, and_assoc]

/-- The state in which a check has just been started. -/
theorem checkUpdate_job {s : State} {frequency : Nat} (hstarts : s.starts frequency = true) :
    s.checkUpdate frequency = { s with job := some ⟨s.update.installed.str, s.prereleases⟩ } := by
  rw [State.checkUpdate, if_pos hstarts]

/-- A check that a script starts is as many days after any earlier one as the script's
frequency, unless the earlier one left no status, or a status was written at the very
time of the later one. -/
theorem checks_spaced {s u : State} {frequency frequency' : Nat} {mid : List Action}
    (hs : s.starts frequency = true) (hmid : exec step s (.run frequency :: mid) = some u)
    (hu : u.starts frequency' = true) :
    s.update.clock + frequency' * day ≤ u.update.clock ∨
      (u.update.status ≠ none ∧ u.written = u.update.clock) ∨ Fails (s.checkUpdate frequency) mid := by
  obtain ⟨-, hfresh, hnone⟩ := starts_iff.1 hu
  have hjob : (s.checkUpdate frequency).job = some ⟨s.update.installed.str, s.prereleases⟩ := by
    rw [checkUpdate_job hs]
  have hclock : s.update.clock ≤ (s.checkUpdate frequency).update.clock := by
    rw [checkUpdate_job hs]
  obtain ⟨pre, a, post, t, rfl, hpre, ha, ht, hlast⟩ := exec_ends hjob hmid hnone
  obtain ⟨v, hv, hpost⟩ := exec_cons hlast
  have htjob := exec_job hjob hpre ht
  by_cases hfails : t.fails a
  · exact Or.inr (Or.inr ⟨pre, a, post, t, rfl, hpre, ht, hfails⟩)
  -- the earlier check wrote its status when it ended
  have hwritten : WrittenSince s.update.clock v := by
    cases a with
    | finish alfred reached =>
      obtain ⟨job, hj, rfl⟩ := Option.map_eq_some_iff.1 hv
      unfold State.finish
      split
      · next hcheck =>
        refine absurd (fun job' hj' => ?_) hfails
        obtain rfl := Option.some.inj (hj.symm.trans hj')
        exact hcheck
      · next hcheck =>
        obtain ⟨r, rfl, hsome, hr, -⟩ := check_writes hcheck
        exact ⟨hsome, hclock.trans (exec_clock ht), Nat.le_of_eq hr.symm⟩
    | die => exact absurd trivial hfails
    | publish | wait | replace | autoupdate | prereleases | run | startUpdate | install => cases ha
  have hend : WrittenSince s.update.clock u := exec_keeps (fun _ _ _ h hstep => h.step hstep) hwritten hpost
  rcases stale_cases hend.status hend.before hfresh with hnow | hlong
  · exact Or.inr (Or.inl ⟨hend.status, hnow⟩)
  · exact Or.inl ((Nat.add_le_add_right hend.since _).trans hlong)

/-- The releases are there, and no check was made. -/
def published : State := { start version225 with update := { neverChecked version225 with releases := someReleases } }

/-- A check, another script while it is under way, its end, and a week. -/
def someWeek : List Action := [.run 1, .finish none true, .wait (7 * day)]

theorem checks_spaced_week : ∃ u, exec step published (.run 7 :: someWeek) = some u ∧
    (published.update.clock + 7 * day ≤ u.update.clock ∨ (u.update.status ≠ none ∧ u.written = u.update.clock) ∨
      Fails (published.checkUpdate 7) someWeek) := by
  have hrun : (exec step published (.run 7 :: someWeek)).map (·.starts 7) = some true := by decide +kernel
  obtain ⟨u, hu, hstarts⟩ := Option.map_eq_some_iff.1 hrun
  exact ⟨u, hu, checks_spaced rfl hu hstarts⟩

/-! ## A check that is due -/

/-- Looking again at the same time gives the same releases. -/
theorem getReleases_again {s r u : UpdateState} {reached : Bool} {rs : List Release}
    (h : getReleases s reached = some (rs, r)) (hresponse : u.response = r.response) (hclock : u.clock = s.clock)
    (reached' : Bool) : getReleases u reached' = some (rs, u) := by
  have hfresh : ∃ w, u.response = some (w, rs) ∧ u.clock - w < minute := by
    obtain ⟨w, rs', hr, hw, hg⟩ | ⟨-, hg⟩ | ⟨-, hg⟩ := getReleases_cases s reached
    · obtain ⟨rfl, rfl⟩ := Prod.mk.inj (Option.some.inj (hg.symm.trans h))
      exact ⟨w, hresponse.trans hr, hclock ▸ hw⟩
    · obtain ⟨rfl, rfl⟩ := Prod.mk.inj (Option.some.inj (hg.symm.trans h))
      refine ⟨s.clock, hresponse, ?_⟩
      rw [hclock, Nat.sub_self]
      decide
    · rw [hg] at h
      cases h
  obtain ⟨w, hw, hlt⟩ := hfresh
  have hsome : (u.response.filter fun r => u.clock - r.1 < minute) = some (w, rs) :=
    Option.filter_eq_some_iff.2 ⟨hw, decide_eq_true hlt⟩
  unfold getReleases
  rw [hsome]

theorem check_eq (s : State) (job : Job) {current : Version} (hversion : Version.parse job.version = .ok current)
    {rs : List Release} {r : UpdateState} {reached : Bool} (hreleases : getReleases s.update reached = some (rs, r))
    (alfred : Option Version) : s.check job alfred reached =
      some ((Workflow.checkUpdate rs current job.prereleases alfred).1,
        { s with
          update := { r with status := some (Workflow.checkUpdate rs current job.prereleases alfred).2 }
          written := s.update.clock }) := by
  simp [State.check, hversion, hreleases, Except.toOption]

/-- What is opened when an update is asked for while the releases are cached. -/
theorem exec_update {s : State} (hread : s.update.installed.Read) {rs : List Release}
    (hreleases : ∀ reached, getReleases s.update reached = some (rs, s.update)) {alfred : Option Version}
    (hfound : (checkUpdate rs s.update.installed s.prereleases alfred).1 = true) :
    ∃ d, Newest rs s.update.installed s.prereleases alfred d ∧ ∀ reached, ∃ t,
      exec step s [.startUpdate alfred reached, .install true] = some t ∧
        t.opened = s.opened ++ [(d.url, d.filename)] ∧ updateAvailable t.update.status = false := by
  obtain ⟨d, hd, hstatus⟩ := checkUpdate_true hfound
  refine ⟨d, hd, fun reached => ?_⟩
  have hcheck := check_eq s ⟨s.update.installed.str, s.prereleases⟩ (parse_str_read hread) (hreleases reached) alfred
  have hinstall := installUpdate_dict hd.mem (some d.version.str) true
  simp only [exec, step, Option.bind_some, State.startUpdate, hcheck, hfound, hstatus, Bool.or_true, if_true, State.install,
    hinstall]
  exact ⟨_, rfl, rfl, rfl⟩

/-- At some time in the last minute of a run, GitHub listed these releases. -/
def Listed (version : Version) (as : List Action) (rs : List Release) : Prop :=
  ∃ pre post s t, as = pre ++ post ∧ exec step (start version) pre = some s ∧ s.update.releases = rs ∧
    exec step (start version) as = some t ∧ t.update.clock < s.update.clock + minute

/-- The response in the cache was listed when it was written. -/
theorem response_listed {version : Version} {as : List Action} {s : State}
    (hrun : exec step (start version) as = some s) {w : Nat} {rs : List Release}
    (hw : s.update.response = some (w, rs)) : ∃ pre post t, as = pre ++ post ∧
      exec step (start version) pre = some t ∧ t.update.releases = rs ∧ t.update.clock = w := by
  induction as using List.reverseRecOn generalizing s with
  | nil =>
    obtain rfl := Option.some.inj hrun
    cases hw
  | append_singleton as a ih =>
    obtain ⟨t, ht, hstep⟩ := exec_snoc hrun
    rcases (step_cases hstep).response with hold | hnew
    · obtain ⟨pre, post, v, rfl, hv, hrs, hclock⟩ := ih ht (hold.symm.trans hw)
      exact ⟨pre, post ++ [a], v, List.append_assoc .., hv, hrs, hclock⟩
    · obtain ⟨rfl, rfl⟩ := Prod.mk.inj (Option.some.inj (hnew.symm.trans hw))
      exact ⟨as, [a], t, rfl, ht, rfl, rfl⟩

theorem listed_of_getReleases {version : Version} {as : List Action} {s : State}
    (hrun : exec step (start version) as = some s) {reached : Bool} {rs : List Release} {r : UpdateState}
    (h : getReleases s.update reached = some (rs, r)) : Listed version as rs := by
  obtain ⟨w, rs', hr, hw, hg⟩ | ⟨-, hg⟩ | ⟨-, hg⟩ := getReleases_cases s.update reached
  · obtain ⟨rfl, rfl⟩ := Prod.mk.inj (Option.some.inj (hg.symm.trans h))
    obtain ⟨pre, post, t, has, ht, hrs, rfl⟩ := response_listed hrun hr
    exact ⟨pre, post, t, s, has, ht, hrs, hrun, by omega⟩
  · obtain ⟨rfl, rfl⟩ := Prod.mk.inj (Option.some.inj (hg.symm.trans h))
    exact ⟨as, [], s, s, (List.append_nil as).symm, hrun, rfl, hrun, Nat.lt_add_of_pos_right (by decide)⟩
  · rw [hg] at h
    cases h

end ProGuide.Workflow.Schedule
