import ProGuide.Lib.ProcTable
import ProGuide.Lib.Runs
import ProGuide.Lib.Text
/-!
# Killing by keyword

`kills.sh` beside the processes it looks at: they start, exit and are reaped
between any two of its commands, and while it waits for an answer. The script
knows a process by its pid alone, so what it signals is the process it asked
about only if the pid was not given to another.
-/
open ProGuide.Lib ProGuide.Lib.Text ProGuide.Lib.Runs ProGuide.Lib.ProcTable

namespace ProGuide.Config.Kills

abbrev Str := List Char

/-! ## The processes -/

/-- What `pgrep`, `ps` and `kill` see of a process: its command line, the texts
of `comm` and `lstart`, and whether the user of the script may signal it. -/
structure Info where
  args : Str
  comm : Str
  lstart : Str
  permitted : Bool
  deriving DecidableEq, Repr

/-- The process `kill` reaches under a pid. One that has exited is still reached,
until it is reaped. -/
def reach (t : Table Info) (process : Pid) : Option (Proc Info) := (t.find process).filter (·.info.permitted)

/-- `kill -0` succeeds. -/
def kill0 (t : Table Info) (process : Pid) : Bool := (reach t process).isSome

def isSpace (c : Char) : Bool := c ∈ [' ', '\t', '\n', '\x0b', '\x0c', '\r']

/-- `ps -o …= -p`, without the spaces in front; nothing when the pid is free. -/
def ps (column : Info → Str) (t : Table Info) (process : Pid) : Str :=
  (((t.find process).map fun p => column p.info).getD []).dropWhile isSpace

/-! ## The script -/

/-- The command that runs next. Before `kill -2`, the processes there when the
user confirmed are kept. -/
inductive Pc where
  | checkingArgs
  | searching
  | listing (todo : List Pid)
  | timing (process : Pid) (todo : List Pid)
  | naming (process : Pid) (todo : List Pid)
  | asking (todo : List Pid)
  | prompting (process : Pid) (todo : List Pid)
  | reading (process : Pid) (todo : List Pid)
  | killing (process : Pid) (todo : List Pid) (confirmed : Table Info)
  | sleeping (process : Pid) (todo : List Pid)
  | ended (status : Nat)

/-- A SIGINT: the serial number of the process that receives it, and the processes
there when the user confirmed. -/
structure Sigint where
  receiver : Nat
  confirmed : Table Info

/-- The script beside the processes. `searched` are those that were there when
`pgrep` ran. -/
structure State where
  keyword : Str
  table : Table Info
  searched : Table Info
  processes : List Pid := []
  pc : Pc := .checkingArgs
  sent : List Sigint := []
  out : List Str := []

/-- The script is called with a keyword, while some processes are there. -/
def initial (keyword : Str) (t : Table Info) : State := { keyword := keyword, table := t, searched := t }

/-- The `pgrep -f` of a keyword: which processes it matches. -/
abbrev Pgrep := Str → Proc Info → Bool

/-- What `pgrep` matched. -/
def State.found (s : State) (pgrep : Pgrep) : List (Proc Info) := s.searched.procs.filter (pgrep s.keyword)

def pidText (process : Pid) : Str := Nat.toDigits 10 process

def noKeyword : Str := "请提供一个关键字作为参数。".toList

def noneFound : Str := "没有找到与关键字相关的进程。".toList

def goneText (process : Pid) : Str := "进程 ".toList ++ pidText process ++ " 已不存在，跳过。".toList

def promptText (process : Pid) (command : Str) : Str :=
  "是否结束进程 ".toList ++ pidText process ++ " (".toList ++ command ++ ")? (Y/N): ".toList

def sentText (process : Pid) : Str := "已发送终止信号给进程：".toList ++ pidText process

def stillText (process : Pid) : Str := "进程 ".toList ++ pidText process ++ " 仍在运行，可能需要强制终止 (kill -9)".toList

def endedText (process : Pid) : Str := "进程 ".toList ++ pidText process ++ " 已成功终止".toList

def failedText (process : Pid) : Str := "无法结束进程：".toList ++ pidText process

def skippedText (process : Pid) : Str := "跳过进程：".toList ++ pidText process

def rule : Str := "-------------------------------------------".toList

/-- `[[ "$response" =~ ^[Yy]$ ]]`. -/
def isYes (response : Str) : Bool := response = ['Y'] || response = ['y']

/-- The next command of the script returns; none while it waits for an answer. -/
def script (pgrep : Pgrep) (s : State) : Option State :=
  match s.pc with
  | .checkingArgs =>
    if s.keyword = [] then some { s with pc := .ended 1, out := s.out ++ [noKeyword] }
    else some { s with pc := .searching }
  | .searching =>
    let processes := (s.table.procs.filter (pgrep s.keyword)).map Proc.pid
    some { s with
      searched := s.table
      processes := processes
      pc := if processes = [] then .ended 1 else .listing processes
      out := s.out ++ if processes = [] then [noneFound] else ["找到以下进程：".toList, []] }
  | .listing [] => some { s with pc := .asking s.processes, out := s.out ++ [[]] }
  | .listing (process :: todo) =>
    if kill0 s.table process then
      some { s with pc := .timing process todo, out := s.out ++ ["PID: ".toList ++ pidText process] }
    else some { s with pc := .listing todo, out := s.out ++ [goneText process] }
  | .timing process todo =>
    let start_time := ps Info.lstart s.table process
    some { s with pc := .naming process todo, out := s.out ++ ["启动时间: ".toList ++ start_time] }
  | .naming process todo =>
    let command := ps Info.comm s.table process
    some { s with pc := .listing todo, out := s.out ++ ["命令: ".toList ++ command, rule] }
  | .asking [] => some { s with pc := .ended 0, out := s.out ++ ["脚本执行完毕。".toList] }
  | .asking (process :: todo) =>
    if kill0 s.table process then some { s with pc := .prompting process todo }
    else some { s with pc := .asking todo, out := s.out ++ [goneText process] }
  | .prompting process todo =>
    let command := ps Info.comm s.table process
    some { s with pc := .reading process todo, out := s.out ++ [promptText process command] }
  | .reading _ _ => none
  | .killing process todo confirmed =>
    match reach s.table process with
    | none => some { s with pc := .asking todo, out := s.out ++ [failedText process, []] }
    | some q =>
      -- the call succeeds on a process that has exited, which receives nothing
      some { s with
        pc := .sleeping process todo
        sent := if q.exited then s.sent else s.sent ++ [⟨q.serial, confirmed⟩]
        out := s.out ++ [sentText process] }
  | .sleeping process todo =>
    let line := if kill0 s.table process then stillText process else endedText process
    some { s with pc := .asking todo, out := s.out ++ [line, []] }
  | .ended _ => none

/-- What happens next: to the processes, by the user, or in the script. -/
inductive Action where
  | start (pid : Pid) (info : Info)
  | exit (pid : Pid)
  | reap (pid : Pid)
  | answer (response : Str)
  | script
  deriving DecidableEq, Repr

def step (pgrep : Pgrep) (s : State) : Action → Option State
  | .start pid info => (s.table.start pid info).map fun t => { s with table := t }
  | .exit pid => some { s with table := s.table.exit pid }
  | .reap pid => some { s with table := s.table.reap pid }
  | .answer response =>
    match s.pc with
    | .reading process todo =>
      if isYes response then some { s with pc := .killing process todo s.table }
      else some { s with pc := .asking todo, out := s.out ++ [skippedText process, []] }
    | _ => none
  | .script => script pgrep s

/-! ## Who is signalled -/

/-- The receiver was matched by `pgrep`, and was running when the user confirmed. -/
def Right (pgrep : Pgrep) (s : State) (g : Sigint) : Prop :=
  g.receiver ∈ (s.found pgrep).map Proc.serial ∧ g.confirmed.Running g.receiver

instance (pgrep : Pgrep) (s : State) (g : Sigint) : Decidable (Right pgrep s g) := inferInstanceAs (Decidable (_ ∧ _))

/-- No SIGINT went to a bystander. -/
def NoBystander (pgrep : Pgrep) (s : State) : Prop := ∀ g ∈ s.sent, Right pgrep s g

instance (pgrep : Pgrep) (s : State) : Decidable (NoBystander pgrep s) := inferInstanceAs (Decidable (∀ g ∈ s.sent, _))

/-- The SIGINTs that went to bystanders. -/
def State.strays (s : State) (pgrep : Pgrep) : Nat := s.sent.countP fun g => ¬ Right pgrep s g

/-- The next command is a `kill -2`, and its pid is that of a running process that
started after `pgrep` ran. -/
def hitsNewcomer (s : State) : Bool :=
  match s.pc with
  | .killing process _ _ => (reach s.table process).any fun q => !q.exited && s.searched.started ≤ q.serial
  | _ => false

/-- The SIGINTs to newcomers that a step sends. -/
def newcomers (s : State) : Action → Nat
  | .script => (hitsNewcomer s).toNat
  | _ => 0

/-! ## What a step does -/

/-- The pids the script still has before it, in the loop it is in. -/
def Pc.pids : Pc → List Pid
  | .listing todo | .asking todo => todo
  | .timing process todo | .naming process todo | .prompting process todo | .reading process todo
  | .killing process todo _ | .sleeping process todo => process :: todo
  | _ => []

def Pc.confirmed : Pc → Option (Table Info)
  | .killing _ _ confirmed => some confirmed
  | _ => none

/-- `pgrep` has not run yet. -/
def Pc.fresh : Pc → Bool
  | .checkingArgs | .searching => true
  | _ => false

/-- Where a command can lead that neither searches nor kills. -/
inductive Moves (processes : List Pid) : Pc → Pc → Prop
  | refuses : Moves processes .checkingArgs (.ended 1)
  | accepts : Moves processes .checkingArgs .searching
  | listed : Moves processes (.listing []) (.asking processes)
  | lists (process : Pid) (todo : List Pid) : Moves processes (.listing (process :: todo)) (.timing process todo)
  | passes (process : Pid) (todo : List Pid) : Moves processes (.listing (process :: todo)) (.listing todo)
  | times (process : Pid) (todo : List Pid) : Moves processes (.timing process todo) (.naming process todo)
  | names (process : Pid) (todo : List Pid) : Moves processes (.naming process todo) (.listing todo)
  | finishes : Moves processes (.asking []) (.ended 0)
  | finds (process : Pid) (todo : List Pid) : Moves processes (.asking (process :: todo)) (.prompting process todo)
  | skips (process : Pid) (todo : List Pid) : Moves processes (.asking (process :: todo)) (.asking todo)
  | prompts (process : Pid) (todo : List Pid) : Moves processes (.prompting process todo) (.reading process todo)
  | wakes (process : Pid) (todo : List Pid) : Moves processes (.sleeping process todo) (.asking todo)

/-- What a command of the script does, apart from what it prints. -/
inductive Ran (pgrep : Pgrep) (s : State) : State → Prop
  | moves (next : Pc) (out : List Str) (move : Moves s.processes s.pc next) :
    Ran pgrep s { s with pc := next, out := out }
  | searches (next : Pc) (processes : List Pid) (out : List Str) (pc : s.pc = .searching)
    (found : processes = (s.table.procs.filter (pgrep s.keyword)).map Proc.pid)
    (on : next = .ended 1 ∨ next = .listing processes) :
    Ran pgrep s { s with searched := s.table, processes := processes, pc := next, out := out }
  | misses (process : Pid) (todo : List Pid) (confirmed : Table Info) (out : List Str)
    (pc : s.pc = .killing process todo confirmed) (reached : reach s.table process = none) :
    Ran pgrep s { s with pc := .asking todo, out := out }
  | kills (process : Pid) (todo : List Pid) (confirmed : Table Info) (q : Proc Info) (out : List Str)
    (pc : s.pc = .killing process todo confirmed) (reached : reach s.table process = some q) :
    Ran pgrep s { s with
      pc := .sleeping process todo
      sent := if q.exited then s.sent else s.sent ++ [⟨q.serial, confirmed⟩]
      out := out }

theorem script_ran {pgrep : Pgrep} {s t : State} (h : script pgrep s = some t) : Ran pgrep s t := by
  have move {next : Pc} (out : List Str) {now : Pc} (hpc : s.pc = now) (hmove : Moves s.processes now next) :
      Ran pgrep s { s with pc := next, out := out } := .moves next out (hpc ▸ hmove)
  cases hpc : s.pc with
  | checkingArgs =>
    simp only [script, hpc] at h
    split at h
    · obtain rfl := Option.some.inj h
      exact move _ hpc .refuses
    · obtain rfl := Option.some.inj h
      exact move _ hpc .accepts
  | searching =>
    simp only [script, hpc] at h
    obtain rfl := Option.some.inj h
    refine .searches _ _ _ hpc rfl ?_
    split
    · exact .inl rfl
    · exact .inr rfl
  | listing todo =>
    rcases todo with _ | ⟨process, todo⟩
    · simp only [script, hpc] at h
      obtain rfl := Option.some.inj h
      exact move _ hpc .listed
    · simp only [script, hpc] at h
      split at h
      · obtain rfl := Option.some.inj h
        exact move _ hpc (.lists process todo)
      · obtain rfl := Option.some.inj h
        exact move _ hpc (.passes process todo)
  | timing process todo =>
    simp only [script, hpc] at h
    obtain rfl := Option.some.inj h
    exact move _ hpc (.times process todo)
  | naming process todo =>
    simp only [script, hpc] at h
    obtain rfl := Option.some.inj h
    exact move _ hpc (.names process todo)
  | asking todo =>
    rcases todo with _ | ⟨process, todo⟩
    · simp only [script, hpc] at h
      obtain rfl := Option.some.inj h
      exact move _ hpc .finishes
    · simp only [script, hpc] at h
      split at h
      · obtain rfl := Option.some.inj h
        exact move _ hpc (.finds process todo)
      · obtain rfl := Option.some.inj h
        exact move _ hpc (.skips process todo)
  | prompting process todo =>
    simp only [script, hpc] at h
    obtain rfl := Option.some.inj h
    exact move _ hpc (.prompts process todo)
  | killing process todo confirmed =>
    simp only [script, hpc] at h
    split at h
    · next hreach =>
      obtain rfl := Option.some.inj h
      exact .misses process todo confirmed _ hpc hreach
    · next q hreach =>
      obtain rfl := Option.some.inj h
      exact .kills process todo confirmed q _ hpc hreach
  | sleeping process todo =>
    simp only [script, hpc] at h
    obtain rfl := Option.some.inj h
    exact move _ hpc (.wakes process todo)
  | reading process todo =>
    simp only [script, hpc] at h
    cases h
  | ended status =>
    simp only [script, hpc] at h
    cases h

section Moves
variable {processes : List Pid} {now next : Pc}

theorem Moves.pids (h : Moves processes now next) : ∀ p ∈ next.pids, p ∈ now.pids ∨ p ∈ processes := by
  cases h with
  | refuses | accepts | finishes => exact fun p hp => absurd hp List.not_mem_nil
  | lists | times | finds | prompts => exact fun p hp => .inl hp
  | passes | names | skips | wakes => exact fun p hp => .inl (List.mem_cons_of_mem _ hp)
  -- the first loop is over, the second takes the same pids
  | listed => exact fun p hp => .inr hp

theorem Moves.unconfirmed (h : Moves processes now next) : now.confirmed = none ∧ next.confirmed = none := by
  cases h <;> exact ⟨rfl, rfl⟩

theorem Moves.fresh (h : Moves processes now next) (hf : next.fresh = true) : now.fresh = true := by
  cases h with
  | accepts => rfl
  | refuses | listed | lists | passes | times | names | finishes | finds | skips | prompts | wakes => cases hf

end Moves

/-- The script moves on, with nothing sent. -/
structure Quiet (s t : State) : Prop where
  keyword : t.keyword = s.keyword
  table : t.table = s.table
  searched : t.searched = s.searched
  processes : t.processes = s.processes
  sent : t.sent = s.sent
  pids : ∀ p ∈ t.pc.pids, p ∈ s.pc.pids ∨ p ∈ s.processes
  confirmed : t.pc.confirmed = none
  fresh : t.pc.fresh = true → s.pc.fresh = true
  spared : hitsNewcomer s = false

/-- `pgrep` has run. -/
structure Searched (pgrep : Pgrep) (s t : State) : Prop where
  before : s.pc = .searching
  keyword : t.keyword = s.keyword
  table : t.table = s.table
  searched : t.searched = s.table
  processes : t.processes = (t.found pgrep).map Proc.pid
  sent : t.sent = s.sent
  pids : ∀ p ∈ t.pc.pids, p ∈ t.processes
  confirmed : t.pc.confirmed = none

/-- A SIGINT is sent to the process under the confirmed pid. -/
def Signals (s t : State) : Prop :=
  ∃ process todo confirmed q out, s.pc = .killing process todo confirmed ∧ reach s.table process = some q ∧
    q.exited = false ∧ t = { s with
      pc := .sleeping process todo
      sent := s.sent ++ [⟨q.serial, confirmed⟩]
      out := out }

theorem spared_of_confirmed {s : State} (h : s.pc.confirmed = none) : hitsNewcomer s = false := by
  unfold hitsNewcomer
  split
  · next hpc =>
    rw [hpc] at h
    cases h
  · rfl

theorem quiet_goto {s : State} {next : Pc} {out : List Str} (hs : hitsNewcomer s = false)
    (hpids : ∀ p ∈ next.pids, p ∈ s.pc.pids ∨ p ∈ s.processes) (hc : next.confirmed = none)
    (hf : next.fresh = true → s.pc.fresh = true) : Quiet s { s with pc := next, out := out } :=
  ⟨rfl, rfl, rfl, rfl, rfl, hpids, hc, hf, hs⟩

/-- What a command of the script sends, in three cases. -/
theorem script_cases {pgrep : Pgrep} {s t : State} (h : script pgrep s = some t) :
    Quiet s t ∨ Searched pgrep s t ∨ Signals s t := by
  cases script_ran h with
  | moves next out move =>
    obtain ⟨hnow, hnext⟩ := move.unconfirmed
    exact .inl (quiet_goto (spared_of_confirmed hnow) move.pids hnext move.fresh)
  | searches next processes out hpc hfound hon =>
    refine .inr (.inl ⟨hpc, rfl, rfl, rfl, hfound, rfl, ?_, ?_⟩)
    · rcases hon with rfl | rfl
      · exact fun p hp => absurd hp List.not_mem_nil
      · exact fun p hp => hp
    · rcases hon with rfl | rfl <;> rfl
  | misses process todo confirmed out hpc hreach =>
    have hs : hitsNewcomer s = false := by simp [hitsNewcomer, hpc, hreach]
    refine .inl (quiet_goto hs (fun p hp => .inl ?_) rfl fun hf => (by cases hf))
    rw [hpc]
    exact List.mem_cons_of_mem _ hp
  | kills process todo confirmed q out hpc hreach =>
    cases hexit : q.exited with
    | true =>
      have hs : hitsNewcomer s = false := by simp [hitsNewcomer, hpc, hreach, hexit]
      refine .inl (quiet_goto hs (fun p hp => .inl ?_) rfl fun hf => (by cases hf))
      rw [hpc]
      exact hp
    | false => exact .inr (.inr ⟨process, todo, confirmed, q, out, hpc, hreach, hexit, rfl⟩)

/-! ## Every run -/

/-- What holds after a run in which `m` SIGINTs went to newcomers. -/
structure Inv (pgrep : Pgrep) (m : Nat) (s : State) : Prop where
  later : Later s.searched s.table
  unsent : s.pc.fresh = true → s.sent = []
  processes : ∀ p ∈ s.processes, p ∈ (s.found pgrep).map Proc.pid
  pids : ∀ p ∈ s.pc.pids, p ∈ (s.found pgrep).map Proc.pid
  confirmed : ∀ c ∈ s.pc.confirmed, Later s.searched c ∧ Later c s.table
  strays : s.strays pgrep = m

theorem inv_start (pgrep : Pgrep) (keyword : Str) (t : Table Info) : Inv pgrep 0 (initial keyword t) where
  later := Later.refl t
  unsent _ := rfl
  processes p hp := absurd hp List.not_mem_nil
  pids p hp := absurd hp List.not_mem_nil
  confirmed c hc := by cases hc
  strays := rfl

variable {pgrep : Pgrep} {m : Nat} {s t : State}

/-- The processes may change between two commands. -/
theorem inv_table (hi : Inv pgrep m s) {u : Table Info} (h : Later s.table u) : Inv pgrep m { s with table := u } where
  later := hi.later.trans h
  unsent := hi.unsent
  processes := hi.processes
  pids := hi.pids
  confirmed c hc := ⟨(hi.confirmed c hc).1, (hi.confirmed c hc).2.trans h⟩
  strays := hi.strays

theorem inv_answer (hi : Inv pgrep m s) {response : Str} (h : step pgrep s (.answer response) = some t) :
    Inv pgrep m t := by
  simp only [step] at h
  split at h
  · next process todo hpc =>
    have hpids := hi.pids
    rw [hpc] at hpids
    split at h
    · -- a yes: the processes that are there now are kept
      obtain rfl := Option.some.inj h
      refine ⟨hi.later, ?_, hi.processes, hpids, ?_, hi.strays⟩
      · intro hf
        cases hf
      · intro c hc
        obtain rfl := Option.some.inj hc
        exact ⟨hi.later, Later.refl _⟩
    · obtain rfl := Option.some.inj h
      refine ⟨hi.later, ?_, hi.processes, fun p hp => hpids p (List.mem_cons_of_mem _ hp), ?_, hi.strays⟩
      · intro hf
        cases hf
      · intro c hc
        cases hc
  · cases h

theorem inv_quiet (hi : Inv pgrep m s) (h : Quiet s t) : Inv pgrep m t := by
  have hfound : t.found pgrep = s.found pgrep := by rw [State.found, State.found, h.searched, h.keyword]
  refine ⟨?_, ?_, ?_, ?_, ?_, ?_⟩
  · rw [h.searched, h.table]
    exact hi.later
  · intro hf
    rw [h.sent]
    exact hi.unsent (h.fresh hf)
  · rw [h.processes, hfound]
    exact hi.processes
  · intro p hp
    rw [hfound]
    rcases h.pids p hp with hp | hp
    · exact hi.pids p hp
    · exact hi.processes p hp
  · intro c hc
    rw [h.confirmed] at hc
    cases hc
  · have hright : Right pgrep t = Right pgrep s := by
      funext g
      rw [Right, Right, hfound]
    rw [← hi.strays, State.strays, State.strays, h.sent]
    simp only [hright]

theorem inv_searched (hi : Inv pgrep m s) (h : Searched pgrep s t) : Inv pgrep m t := by
  have hsent : t.sent = [] := by
    rw [h.sent]
    exact hi.unsent (by rw [h.before]; rfl)
  have hm : m = 0 := by
    have hs := hi.unsent (by rw [h.before]; rfl)
    rw [← hi.strays, State.strays, hs]
    rfl
  refine ⟨?_, fun _ => hsent, ?_, ?_, ?_, ?_⟩
  · rw [h.searched, h.table]
    exact Later.refl _
  · rw [h.processes]
    exact fun p hp => hp
  · rw [← h.processes]
    exact h.pids
  · intro c hc
    rw [h.confirmed] at hc
    cases hc
  · rw [State.strays, hsent, hm]
    rfl

/-- A SIGINT under a confirmed pid goes to the process that was asked about exactly
when the pid was not given to a newcomer. -/
theorem right_iff (hi : Inv pgrep m s) {process : Pid} {todo : List Pid} {c : Table Info} {q : Proc Info}
    (hpc : s.pc = .killing process todo c) (hreach : reach s.table process = some q) (hexit : q.exited = false) :
    Right pgrep s ⟨q.serial, c⟩ ↔ q.serial < s.searched.started := by
  obtain ⟨hq, hpid⟩ := Table.mem_of_find (Option.filter_eq_some_iff.1 hreach).1
  have hpids := hi.pids process (by rw [hpc]; exact List.mem_cons_self)
  obtain ⟨hbefore, hafter⟩ := hi.confirmed c (by rw [hpc]; rfl)
  obtain ⟨p, hp, rfl⟩ := List.mem_map.1 hpids
  have hsame := hi.later.same_iff (List.mem_of_mem_filter hp) hq hpid.symm
  constructor
  · rintro ⟨hfound, -⟩
    obtain ⟨o, ho, hserial⟩ := List.mem_map.1 hfound
    have hlt := s.searched.serial_lt o (List.mem_of_mem_filter ho)
    rw [hserial] at hlt
    exact hlt
  · intro hlt
    refine ⟨List.mem_map.2 ⟨p, hp, (hsame.2 hlt).symm⟩, ?_⟩
    have hrunning : s.table.Running q.serial := ⟨q, hq, rfl, hexit⟩
    exact hafter.running hrunning (Nat.lt_of_lt_of_le hlt hbefore.started_le)

theorem inv_signals (hi : Inv pgrep m s) (h : Signals s t) : Inv pgrep (m + (hitsNewcomer s).toNat) t := by
  obtain ⟨process, todo, c, q, out, hpc, hreach, hexit, rfl⟩ := h
  have hright := right_iff hi hpc hreach hexit
  have hpids := hi.pids
  rw [hpc] at hpids
  refine ⟨hi.later, ?_, hi.processes, hpids, ?_, ?_⟩
  · intro hf
    cases hf
  · intro c hc
    cases hc
  · have hnewcomer : hitsNewcomer s = decide (¬ Right pgrep s ⟨q.serial, c⟩) := by
      simp [hitsNewcomer, hpc, hreach, hexit, hright]
    have hone : [(⟨q.serial, c⟩ : Sigint)].countP (fun g => ¬ Right pgrep s g) = (hitsNewcomer s).toNat := by
      rw [hnewcomer, List.countP_singleton]
      split_ifs with hg <;> simp [hg]
    rw [← hone, ← hi.strays]
    exact List.countP_append

theorem newcomers_eq_zero (s : State) (a : Action) : newcomers s a = 0 ↔ (a = .script → hitsNewcomer s = false) := by
  cases a <;> simp [newcomers]

theorem inv_step (pgrep : Pgrep) (m : Nat) (s : State) (a : Action) (t : State) (hi : Inv pgrep m s)
    (h : step pgrep s a = some t) : Inv pgrep (m + newcomers s a) t := by
  cases a with
  | start pid info =>
    obtain ⟨u, hu, rfl⟩ := Option.map_eq_some_iff.1 h
    exact inv_table hi (later_start hu)
  | exit pid =>
    obtain rfl := Option.some.inj h
    exact inv_table hi (later_exit s.table pid)
  | reap pid =>
    obtain rfl := Option.some.inj h
    exact inv_table hi (later_reap s.table pid)
  | answer response => exact inv_answer hi h
  | script =>
    rcases script_cases h with hquiet | hsearched | hsignals
    · rw [(newcomers_eq_zero s .script).2 fun _ => hquiet.spared]
      exact inv_quiet hi hquiet
    · have hspared : hitsNewcomer s = false := spared_of_confirmed (by rw [hsearched.before]; rfl)
      rw [(newcomers_eq_zero s .script).2 fun _ => hspared]
      exact inv_searched hi hsearched
    · exact inv_signals hi hsignals

theorem noBystander_iff_strays (pgrep : Pgrep) (s : State) : NoBystander pgrep s ↔ s.strays pgrep = 0 := by
  simp [NoBystander, State.strays, List.countP_eq_zero]

/-- In every run, however the script's commands fall between the processes' starts
and exits and the user's answers, no SIGINT goes to a bystander exactly when no
`kill -2` meets a process that started after `pgrep` ran. -/
theorem noBystander_iff {keyword : Str} {table : Table Info} {as : List Action} {s : State}
    (hrun : exec (step pgrep) (initial keyword table) as = some s) : NoBystander pgrep s ↔
      ∀ pre post u, as = pre ++ .script :: post → exec (step pgrep) (initial keyword table) pre = some u →
        hitsNewcomer u = false := by
  have hzero (m : Nat) (hi : Inv pgrep m s) : NoBystander pgrep s ↔ m = 0 := by
    rw [noBystander_iff_strays, hi.strays]
  rw [exec_iff (inv_step pgrep) (inv_start pgrep keyword table) hrun hzero]
  constructor
  · intro h pre post u heq hpre
    exact (newcomers_eq_zero u _).1 (h pre _ post u heq hpre) rfl
  · intro h pre a post u heq hpre
    rw [newcomers_eq_zero]
    rintro rfl
    exact h pre post u heq hpre

/-! ## Two runs -/

/-- A keyword without special characters is found anywhere in the command line. -/
def plainPgrep : Pgrep := fun keyword p => contains keyword p.info.args

def server : Info := ⟨"java -jar server.jar".toList, "java".toList, "Mon Mar  4 09:00:00 2024".toList, true⟩

def editor : Info := ⟨"vim notes.md".toList, "vim".toList, "Mon Mar  4 10:30:00 2024".toList, true⟩

/-- One process is there, with pid 4711. -/
def oneServer : Table Info where
  procs := [⟨0, 4711, server, false⟩]
  started := 1
  pids_distinct := List.nodup_singleton _
  serials_distinct := List.nodup_singleton _
  serial_lt p hp := by
    rw [List.mem_singleton.1 hp]
    exact Nat.one_pos

/-- The script's commands up to the question about the server. -/
def toQuestion : List Action := List.replicate 8 .script

/-- The user says yes. -/
def answered : List Action := toQuestion ++ [.answer ['Y'], .script]

/-- The same, but the server exits before the answer, and an editor starts under
its pid. -/
def reused : List Action := toQuestion ++ [.exit 4711, .reap 4711, .start 4711 editor, .answer ['Y'], .script]

/-- The server receives the SIGINT, and no `kill -2` meets a newcomer. -/
theorem noBystander_answered : ∃ s, exec (step plainPgrep) (initial "server".toList oneServer) answered = some s ∧
    s.sent.map Sigint.receiver = [0] ∧ NoBystander plainPgrep s ∧
      ∀ pre post u, answered = pre ++ .script :: post →
        exec (step plainPgrep) (initial "server".toList oneServer) pre = some u → hitsNewcomer u = false := by
  have hrun : (exec (step plainPgrep) (initial "server".toList oneServer) answered).map
      (fun s => (s.sent.map Sigint.receiver, decide (NoBystander plainPgrep s))) = some ([0], true) := by decide +kernel
  obtain ⟨s, hs, hsent⟩ := Option.map_eq_some_iff.1 hrun
  obtain ⟨hreceiver, hnone⟩ := Prod.mk.inj hsent
  have hno := of_decide_eq_true hnone
  exact ⟨s, hs, hreceiver, hno, (noBystander_iff hs).1 hno⟩

/-- The server was asked about; the SIGINT goes to the editor. -/
theorem reused_pid_hit : ∃ s, exec (step plainPgrep) (initial "server".toList oneServer) reused = some s ∧
    (s.found plainPgrep).map Proc.serial = [0] ∧ s.sent.map Sigint.receiver = [1] ∧ ¬ NoBystander plainPgrep s := by
  have hrun : (exec (step plainPgrep) (initial "server".toList oneServer) reused).map
      (fun s => ((s.found plainPgrep).map Proc.serial, s.sent.map Sigint.receiver)) = some ([0], [1]) := by
    decide +kernel
  obtain ⟨s, hs, hsent⟩ := Option.map_eq_some_iff.1 hrun
  obtain ⟨hfound, hreceiver⟩ := Prod.mk.inj hsent
  refine ⟨s, hs, hfound, hreceiver, fun hno => ?_⟩
  -- the editor was not among the matches
  obtain ⟨g, hg, hg1⟩ := List.mem_map.1 (hreceiver ▸ List.mem_singleton_self 1 : 1 ∈ s.sent.map Sigint.receiver)
  have hmatch := (hno g hg).1
  rw [hfound, hg1] at hmatch
  exact absurd hmatch (by decide)

end ProGuide.Config.Kills
