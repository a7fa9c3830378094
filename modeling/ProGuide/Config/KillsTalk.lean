import Mathlib.Data.List.Count
import ProGuide.Config.Kills
/-!
# What the script asks

Over any run of `kills.sh`: which processes the user is asked about, what a yes leads to,
and how long the script can take, however the processes come and go meanwhile.
-/
open ProGuide.Lib.Runs ProGuide.Lib.ProcTable

namespace ProGuide.Config.Kills

/-! ## The talk with the user -/

/-- A question about a pid, a yes to it, and the `kill -2` of it, with the serial number
of the process that has the pid then. -/
inductive Event where
  | asked (process : Pid)
  | confirmed (process : Pid)
  | killed (process : Pid) (holder : Option Nat)
  deriving DecidableEq, Repr

/-- The process that the `kill -2` meets. -/
def Event.holder : Event → Option Nat
  | .killed _ holder => holder
  | _ => none

/-- What a step says. -/
def talk (s : State) : Action → List Event
  | .script =>
    match s.pc with
    | .prompting process _ => [.asked process]
    | .killing process _ _ => [.killed process ((s.table.find process).map Proc.serial)]
    | _ => []
  | .answer response =>
    match s.pc with
    | .reading process _ => if isYes response then [.confirmed process] else []
    | _ => []
  | _ => []

/-- All that is said about one pid: the question, and the `kill -2` if the answer is yes. -/
def block (b : Pid × Option (Option Nat)) : List Event :=
  match b.2 with
  | some holder => [.asked b.1, .confirmed b.1, .killed b.1 holder]
  | none => [.asked b.1]

/-- Some of the pids before `todo` were talked about, each to the end. -/
def Asked (processes todo : List Pid) (es : List Event) : Prop :=
  ∃ (blocks : List (Pid × Option (Option Nat))) (pre : List Pid),
    processes = pre ++ todo ∧ (blocks.map Prod.fst).Sublist pre ∧ es = blocks.flatMap block

/-- What was said when the script is at some command. -/
def Talked (processes : List Pid) (es : List Event) : Pc → Prop
  | .checkingArgs | .searching | .listing _ | .timing _ _ | .naming _ _ => es = []
  | .asking todo => Asked processes todo es
  | .prompting process todo => Asked processes (process :: todo) es
  | .reading process todo => ∃ before, Asked processes (process :: todo) before ∧ es = before ++ [.asked process]
  | .killing process todo _ =>
    ∃ before, Asked processes (process :: todo) before ∧ es = before ++ [.asked process, .confirmed process]
  | .sleeping process todo =>
    ∃ before holder, Asked processes (process :: todo) before ∧ es = before ++ block (process, some holder)
  | .ended _ => ∃ todo, Asked processes todo es

theorem asked_nil (processes : List Pid) : Asked processes processes [] := ⟨[], [], rfl, List.nil_sublist _, rfl⟩

theorem Asked.skip {processes todo : List Pid} {process : Pid} {es : List Event}
    (h : Asked processes (process :: todo) es) : Asked processes todo es := by
  obtain ⟨blocks, pre, rfl, hsub, rfl⟩ := h
  exact ⟨blocks, pre ++ [process], by simp, hsub.trans (List.sublist_append_left _ _), rfl⟩

theorem Asked.add {processes todo : List Pid} {process : Pid} {es : List Event}
    (h : Asked processes (process :: todo) es) (answer : Option (Option Nat)) :
    Asked processes todo (es ++ block (process, answer)) := by
  obtain ⟨blocks, pre, rfl, hsub, rfl⟩ := h
  refine ⟨blocks ++ [(process, answer)], pre ++ [process], by simp, ?_, ?_⟩
  · rw [List.map_append]
    exact hsub.append (List.Sublist.refl _)
  · rw [List.flatMap_append, List.flatMap_singleton]

/-- What was said is the beginning of what is said about some of the pids, in order. -/
theorem Talked.blocks {processes : List Pid} {es : List Event} {pc : Pc} (h : Talked processes es pc) :
    ∃ blocks : List (Pid × Option (Option Nat)), (blocks.map Prod.fst).Sublist processes ∧ es <+: blocks.flatMap block := by
  have hasked {todo : List Pid} {es' : List Event} (ha : Asked processes todo es') (hp : es <+: es') :
      ∃ blocks : List (Pid × Option (Option Nat)), (blocks.map Prod.fst).Sublist processes ∧ es <+: blocks.flatMap block := by
    obtain ⟨blocks, pre, rfl, hsub, rfl⟩ := ha
    exact ⟨blocks, hsub.trans (List.sublist_append_left _ _), hp⟩
  cases pc with
  | checkingArgs | searching | listing | timing | naming =>
    obtain rfl : es = [] := h
    exact ⟨[], List.nil_sublist _, List.nil_prefix⟩
  | asking todo => exact hasked h (List.prefix_refl _)
  | prompting process todo => exact hasked h (List.prefix_refl _)
  | reading process todo =>
    obtain ⟨before, hb, rfl⟩ := h
    exact hasked (hb.add none) (List.prefix_refl _)
  | killing process todo confirmed =>
    obtain ⟨before, hb, rfl⟩ := h
    exact hasked (hb.add (some none)) ⟨[.killed process none], by simp [block]⟩
  | sleeping process todo =>
    obtain ⟨before, holder, hb, rfl⟩ := h
    exact hasked (hb.add (some holder)) (List.prefix_refl _)
  | ended status =>
    obtain ⟨todo, ha⟩ := h
    exact hasked ha (List.prefix_refl _)

/-- What is said on the way from one command to the next. -/
theorem Moves.talked {s : State} {next : Pc} (h : Moves s.processes s.pc next) {es : List Event}
    (ht : Talked s.processes es s.pc) : Talked s.processes (es ++ talk s .script) next := by
  have silent {now : Pc} (hpc : s.pc = now) (hsilent : talk s .script = [])
      (hnext : Talked s.processes es now → Talked s.processes es next) :
      Talked s.processes (es ++ talk s .script) next := by
    subst hpc
    rw [hsilent, List.append_nil]
    exact hnext ht
  generalize hpc : s.pc = now at h
  cases h with
  | refuses =>
    exact silent hpc (by rw [talk, hpc]) fun hes => ⟨s.processes, by rw [show es = [] from hes]; exact asked_nil _⟩
  | accepts => exact silent hpc (by rw [talk, hpc]) id
  | listed =>
    exact silent hpc (by rw [talk, hpc]) fun hes => by rw [show es = [] from hes]; exact asked_nil _
  | lists | passes | times | names | finds => exact silent hpc (by rw [talk, hpc]) id
  | finishes => exact silent hpc (by rw [talk, hpc]) fun ha => ⟨[], ha⟩
  | skips => exact silent hpc (by rw [talk, hpc]) Asked.skip
  | prompts process todo =>
    rw [hpc] at ht
    rw [talk, hpc]
    exact ⟨es, ht, rfl⟩
  | wakes process todo =>
    refine silent hpc (by rw [talk, hpc]) fun hes => ?_
    obtain ⟨before, holder, hb, rfl⟩ := hes
    exact hb.add (some holder)

/-- What holds after a run that said `es`. -/
structure Said (pgrep : Pgrep) (es : List Event) (s : State) : Prop where
  talked : Talked s.processes es s.pc
  found : s.processes.Sublist ((s.found pgrep).map Proc.pid)
  sent : (s.sent.map Sigint.receiver).Sublist (es.filterMap Event.holder)

theorem said_start (pgrep : Pgrep) (keyword : Str) (t : Table Info) : Said pgrep [] (initial keyword t) :=
  ⟨rfl, List.nil_sublist _, List.Sublist.refl _⟩

variable {pgrep : Pgrep}

theorem Said.table {es : List Event} {s : State} (h : Said pgrep es s) (t : Table Info) :
    Said pgrep (es ++ []) { s with table := t } := by
  rw [List.append_nil]
  exact ⟨h.talked, h.found, h.sent⟩

/-- The process under a pid that is signalled is the one that has the pid. -/
theorem find_of_reach {t : Table Info} {process : Pid} {q : Proc Info} (h : reach t process = some q) :
    t.find process = some q := (Option.filter_eq_some_iff.1 h).1

theorem said_script {es : List Event} {s t : State} (h : Said pgrep es s) (hstep : script pgrep s = some t) :
    Said pgrep (es ++ talk s .script) t := by
  have htalked := h.talked
  have hsent : (s.sent.map Sigint.receiver).Sublist ((es ++ talk s .script).filterMap Event.holder) := by
    rw [List.filterMap_append]
    exact h.sent.trans (List.sublist_append_left _ _)
  cases script_ran hstep with
  | moves next out move => exact ⟨move.talked htalked, h.found, hsent⟩
  | searches next processes out hpc hfound hon =>
    rw [hpc] at htalked
    obtain rfl : es = [] := htalked
    refine ⟨?_, ?_, hsent⟩
    · rw [talk, hpc]
      rcases hon with rfl | rfl
      · exact ⟨processes, asked_nil _⟩
      · rfl
    · rw [hfound]
      exact List.Sublist.refl _
  | misses process todo confirmed out hpc hreach =>
    rw [hpc] at htalked
    obtain ⟨before, hb, rfl⟩ := htalked
    refine ⟨?_, h.found, hsent⟩
    rw [talk, hpc, List.append_assoc]
    exact hb.add (some _)
  | kills process todo confirmed q out hpc hreach =>
    rw [hpc] at htalked
    obtain ⟨before, hb, rfl⟩ := htalked
    have htold : talk s .script = [.killed process (some q.serial)] := by
      simp only [talk, hpc, find_of_reach hreach, Option.map_some]
    refine ⟨?_, h.found, ?_⟩
    · rw [htold, List.append_assoc]
      exact ⟨before, some q.serial, hb, rfl⟩
    · dsimp only
      split
      · exact hsent
      · rw [htold, List.filterMap_append, List.map_append]
        exact h.sent.append (List.Sublist.refl _)

theorem said_step (pgrep : Pgrep) (es : List Event) (s : State) (a : Action) (t : State) (h : Said pgrep es s)
    (hstep : step pgrep s a = some t) : Said pgrep (es ++ talk s a) t := by
  cases a with
  | start pid info =>
    obtain ⟨u, -, rfl⟩ := Option.map_eq_some_iff.1 hstep
    exact h.table u
  | exit pid =>
    obtain rfl := Option.some.inj hstep
    exact h.table _
  | reap pid =>
    obtain rfl := Option.some.inj hstep
    exact h.table _
  | script => exact said_script h hstep
  | answer response =>
    have htalked := h.talked
    have hsent : (s.sent.map Sigint.receiver).Sublist ((es ++ talk s (.answer response)).filterMap Event.holder) := by
      rw [List.filterMap_append]
      exact h.sent.trans (List.sublist_append_left _ _)
    simp only [step] at hstep
    split at hstep
    · next process todo hpc =>
      rw [hpc] at htalked
      obtain ⟨before, hb, rfl⟩ := htalked
      split at hstep
      · next hyes =>
        obtain rfl := Option.some.inj hstep
        have htold : talk s (.answer response) = [.confirmed process] := by simp only [talk, hpc, if_pos hyes]
        refine ⟨?_, h.found, hsent⟩
        rw [htold, List.append_assoc]
        exact ⟨before, hb, rfl⟩
      · next hno =>
        obtain rfl := Option.some.inj hstep
        have htold : talk s (.answer response) = [] := by simp only [talk, hpc, if_neg hno]
        refine ⟨?_, h.found, hsent⟩
        rw [htold, List.append_nil]
        exact hb.add none
    · cases hstep

/-- The script talks about some of the processes that `pgrep` found, in its order and of
none twice: a question, and only after a yes to it one `kill -2` of the same pid. Every
SIGINT it sends goes to the process that has the pid of one of these then. -/
theorem asks_before_killing {keyword : Str} {table : Table Info} {as : List Action} {s : State}
    (hrun : exec (step pgrep) (initial keyword table) as = some s) :
    (∃ blocks : List (Pid × Option (Option Nat)), (blocks.map Prod.fst).Nodup ∧
      (blocks.map Prod.fst).Sublist ((s.found pgrep).map Proc.pid) ∧
      gather (step pgrep) talk (initial keyword table) as <+: blocks.flatMap block) ∧
    (s.sent.map Sigint.receiver).Sublist
      ((gather (step pgrep) talk (initial keyword table) as).filterMap Event.holder) := by
  have hsaid : Said pgrep ([] ++ gather (step pgrep) talk (initial keyword table) as) s :=
    exec_gather (said_step pgrep) (said_start pgrep keyword table) hrun
  obtain ⟨blocks, hsub, hprefix⟩ := hsaid.talked.blocks
  have hfound := hsub.trans hsaid.found
  have hdistinct : ((s.found pgrep).map Proc.pid).Nodup :=
    s.searched.pids_distinct.sublist (List.filter_sublist.map _)
  exact ⟨⟨blocks, hdistinct.sublist hfound, hfound, hprefix⟩, hsaid.sent⟩

theorem asks_before_killing_answered : ∃ s, exec (step plainPgrep) (initial "server".toList oneServer) answered = some s ∧
    s.sent.map Sigint.receiver = [0] ∧ (s.sent.map Sigint.receiver).Sublist
      ((gather (step plainPgrep) talk (initial "server".toList oneServer) answered).filterMap Event.holder) := by
  have hrun : (exec (step plainPgrep) (initial "server".toList oneServer) answered).map
      (fun s => s.sent.map Sigint.receiver) = some [0] := by decide +kernel
  obtain ⟨s, hs, hsent⟩ := Option.map_eq_some_iff.1 hrun
  exact ⟨s, hs, hsent, (asks_before_killing hs).2⟩

/-! ## How long it takes -/

/-- The script's own steps and the user's answers. -/
def taken (_s : State) : Action → Nat
  | .script | .answer _ => 1
  | _ => 0

/-- The most that is still to come after `pgrep` has run, with `n` pids found. -/
def remaining (n : Nat) : Pc → Nat
  | .checkingArgs | .searching | .ended _ => 0
  | .listing todo => 3 * todo.length + (5 * n + 2)
  | .timing _ todo => 3 * todo.length + 2 + (5 * n + 2)
  | .naming _ todo => 3 * todo.length + 1 + (5 * n + 2)
  | .asking todo => 5 * todo.length + 1
  | .prompting _ todo => 5 * todo.length + 5
  | .reading _ todo => 5 * todo.length + 4
  | .killing _ todo _ => 5 * todo.length + 3
  | .sleeping _ todo => 5 * todo.length + 2

/-- After a run of `m` steps and answers. -/
structure Bounded (m : Nat) (s : State) : Prop where
  checking : s.pc = .checkingArgs → m = 0
  searching : s.pc = .searching → m ≤ 1
  bound : m + remaining s.processes.length s.pc ≤ 8 * s.processes.length + 4

/-- Once `pgrep` has run, a command leaves less to come. -/
theorem Moves.less {processes : List Pid} {now next : Pc} (h : Moves processes now next) (hf : now.fresh = false) :
    next.fresh = false ∧ remaining processes.length next + 1 ≤ remaining processes.length now := by
  cases h with
  | refuses | accepts => cases hf
  | listed | finishes => exact ⟨rfl, by simp only [remaining, List.length_nil]; omega⟩
  | lists | passes | finds | skips => exact ⟨rfl, by simp only [remaining, List.length_cons]; omega⟩
  | times | names | prompts | wakes => exact ⟨rfl, by simp only [remaining]; omega⟩

/-- One step on, to a command that has less to come. -/
theorem Bounded.on {m : Nat} {s t : State} {next : Pc} (h : Bounded m s) (hnext : t.pc = next)
    (hp : t.processes = s.processes) (hf : next.fresh = false)
    (hless : remaining s.processes.length next + 1 ≤ remaining s.processes.length s.pc) :
    Bounded (m + 1) t := by
  have hbound := h.bound
  refine ⟨fun hn => ?_, fun hn => ?_, ?_⟩
  · rw [← hnext, hn] at hf
    cases hf
  · rw [← hnext, hn] at hf
    cases hf
  · rw [hnext, hp]
    omega

/-- The first commands take two steps. -/
theorem Bounded.first {m : Nat} {t : State} (hm : m ≤ 2) (hf : t.pc.fresh = false)
    (hbound : remaining t.processes.length t.pc ≤ 8 * t.processes.length + 2) : Bounded m t := by
  refine ⟨fun hn => ?_, fun hn => ?_, by omega⟩
  · rw [hn] at hf
    cases hf
  · rw [hn] at hf
    cases hf

theorem bounded_script {m : Nat} {s t : State} (h : Bounded m s) (hstep : script pgrep s = some t) :
    Bounded (m + 1) t := by
  cases script_ran hstep with
  | moves next out move =>
    cases hf : s.pc.fresh with
    | false =>
      obtain ⟨hnext, hless⟩ := move.less hf
      exact h.on rfl rfl hnext hless
    | true =>
      -- the argument is checked first
      generalize hpc : s.pc = now at move hf
      cases move with
      | refuses =>
        have hm := h.checking hpc
        exact .first (by omega) rfl (Nat.zero_le _)
      | accepts =>
        have hm := h.checking hpc
        exact ⟨fun hn => (by cases hn), fun _ => by omega, by simp only [remaining]; omega⟩
      | listed | lists | passes | times | names | finishes | finds | skips | prompts | wakes => cases hf
  | searches next processes out hpc hfound hon =>
    have hm := h.searching hpc
    rcases hon with rfl | rfl
    · exact .first (by omega) rfl (Nat.zero_le _)
    · exact .first (by omega) rfl (by simp only [remaining]; omega)
  | misses process todo confirmed out hpc hreach =>
    exact h.on rfl rfl rfl (by rw [hpc]; simp only [remaining]; omega)
  | kills process todo confirmed q out hpc hreach =>
    exact h.on rfl rfl rfl (by rw [hpc]; simp only [remaining]; omega)

theorem bounded_step (pgrep : Pgrep) (m : Nat) (s : State) (a : Action) (t : State) (h : Bounded m s)
    (hstep : step pgrep s a = some t) : Bounded (m + taken s a) t := by
  cases a with
  | start pid info =>
    obtain ⟨u, -, rfl⟩ := Option.map_eq_some_iff.1 hstep
    exact ⟨h.checking, h.searching, h.bound⟩
  | exit pid =>
    obtain rfl := Option.some.inj hstep
    exact ⟨h.checking, h.searching, h.bound⟩
  | reap pid =>
    obtain rfl := Option.some.inj hstep
    exact ⟨h.checking, h.searching, h.bound⟩
  | script => exact bounded_script h hstep
  | answer response =>
    simp only [step] at hstep
    split at hstep
    · next process todo hpc =>
      split at hstep
      · obtain rfl := Option.some.inj hstep
        exact h.on rfl rfl rfl (by rw [hpc]; simp only [remaining]; omega)
      · obtain rfl := Option.some.inj hstep
        exact h.on rfl rfl rfl (by rw [hpc]; simp only [remaining]; omega)
    · cases hstep

/-- Until it has ended the script runs on, or waits for an answer, and takes any. -/
theorem script_progress (pgrep : Pgrep) {s : State} (h : ∀ status, s.pc ≠ .ended status) :
    (step pgrep s .script).isSome = true ∨ ∀ response, (step pgrep s (.answer response)).isSome = true := by
  cases hpc : s.pc with
  | ended status => exact absurd hpc (h status)
  | reading process todo =>
    refine .inr fun response => ?_
    simp only [step, hpc]
    split <;> rfl
  | listing todo =>
    left
    rcases todo with _ | ⟨process, todo⟩
    · simp only [step, script, hpc, Option.isSome_some]
    · simp only [step, script, hpc]
      split <;> rfl
  | asking todo =>
    left
    rcases todo with _ | ⟨process, todo⟩
    · simp only [step, script, hpc, Option.isSome_some]
    · simp only [step, script, hpc]
      split <;> rfl
  | checkingArgs =>
    left
    simp only [step, script, hpc]
    split <;> rfl
  | killing process todo confirmed =>
    left
    simp only [step, script, hpc]
    split <;> rfl
  | searching | timing process todo | naming process todo | prompting process todo | sleeping process todo =>
    left
    simp only [step, script, hpc, Option.isSome_some]

/-- The script ends: it never stops short of it but to wait for an answer, and it takes at
most four steps and eight for each pid, the answers included. -/
theorem script_ends {keyword : Str} {table : Table Info} {as : List Action} {s : State}
    (hrun : exec (step pgrep) (initial keyword table) as = some s) :
    tally (step pgrep) taken (initial keyword table) as ≤ 8 * s.processes.length + 4 ∧
    ((∀ status, s.pc ≠ .ended status) →
      (step pgrep s .script).isSome = true ∨ ∀ response, (step pgrep s (.answer response)).isSome = true) := by
  have hstart : Bounded 0 (initial keyword table) := ⟨fun _ => rfl, fun _ => Nat.zero_le _, Nat.zero_le _⟩
  have hbound := (exec_invariant (bounded_step pgrep) hstart hrun).bound
  rw [Nat.zero_add] at hbound
  exact ⟨Nat.le_of_add_right_le hbound, script_progress pgrep⟩

theorem script_ends_answered : ∃ s, exec (step plainPgrep) (initial "server".toList oneServer) answered = some s ∧
    tally (step plainPgrep) taken (initial "server".toList oneServer) answered ≤ 8 * s.processes.length + 4 := by
  have hrun : (exec (step plainPgrep) (initial "server".toList oneServer) answered).isSome = true := by decide +kernel
  obtain ⟨s, hs⟩ := Option.isSome_iff_exists.1 hrun
  exact ⟨s, hs, (script_ends hs).1⟩

end ProGuide.Config.Kills
