import ProGuide.Workflow.DataStore
/-!
# Putting off SIGTERM

Alfred may kill a script at any time. `uninterruptible` of `util.py` wraps a function
whose writes belong together: SIGTERM is noted while the function runs, and answered once
it has returned. A machine of a script's statements and the signals between them.
-/
open ProGuide.Lib.Runs

namespace ProGuide.Workflow.Uninterruptible

/-! ## The code -/

/-- What a process does about SIGTERM. -/
inductive Handler where
  | sigDfl
  | sigIgn
  /-- `signal_handler` of the wrapper of the `i`th piece of work. -/
  | wrapper (i : Nat)
  deriving DecidableEq, Repr

/-- A piece of a script's work on what it stores: one step of its own, or the call of a
wrapped function that takes some steps and then returns or raises. -/
inductive Work (S : Type) where
  | plain (f : S → S)
  | wrapped (body : List (S → S)) (raises : Bool)

/-- Where the script is; `old` is `old_signal_handler`. -/
inductive Stage (S : Type) where
  | idle
  | inside (rest : List (S → S)) (raises : Bool) (old : Handler)
  | restored (old : Handler)

structure Process (S : Type) where
  store : S
  todo : List (Work S)
  begun : Nat
  stage : Stage S
  handler : Handler
  /-- Which wrappers have their `_caught_signal`. -/
  caught : Nat → Bool
  ended : Bool

inductive Event where
  | next
  | sigterm
  deriving DecidableEq, Repr

namespace Process
variable {S : Type}

def start (works : List (Work S)) (s : S) : Process S where
  store := s
  todo := works
  begun := 0
  stage := .idle
  handler := .sigDfl
  caught _ := false
  ended := false

/-- The next statement. A wrapper clears its own signal before it is the handler, and an
exception leaves `__call__` without restoring the old one. -/
def next (p : Process S) : Process S :=
  match p.stage with
  | .idle =>
    match p.todo with
    | [] => p
    | .plain f :: todo => { p with store := f p.store, todo, begun := p.begun + 1 }
    | .wrapped body raises :: todo =>
      { p with
        todo, begun := p.begun + 1, stage := .inside body raises p.handler, handler := .wrapper (p.begun + 1),
        caught := Function.update p.caught (p.begun + 1) false }
  | .inside (f :: rest) raises old => { p with store := f p.store, stage := .inside rest raises old }
  | .inside [] true _ => { p with stage := .idle }
  | .inside [] false old => { p with handler := old, stage := .restored old }
  | .restored old =>
    if p.caught p.begun then
      match old with
      | .sigDfl => { p with ended := true }
      | .sigIgn => { p with stage := .idle }
      | .wrapper i => { p with stage := .idle, caught := Function.update p.caught i true }
    else { p with stage := .idle }

def sigterm (p : Process S) : Process S :=
  match p.handler with
  | .sigDfl => { p with ended := true }
  | .sigIgn => p
  | .wrapper i => { p with caught := Function.update p.caught i true }

def step (p : Process S) (e : Event) : Process S :=
  if p.ended then p
  else match e with
    | .next => p.next
    | .sigterm => p.sigterm

def run (p : Process S) (es : List Event) : Process S := es.foldl step p

end Process

/-! ## What a process has done -/

section Progress
variable {S : Type}

def Work.effect : Work S → S → S
  | .plain f, s => f s
  | .wrapped body _, s => body.foldl (fun s f => f s) s

def Work.raises : Work S → Bool
  | .plain _ => false
  | .wrapped _ raises => raises

/-- What some works leave, one after the other. -/
def applied (works : List (Work S)) (s : S) : S := works.foldl (fun s w => w.effect s) s

/-- The first `n` works are done, and none raised. -/
structure Done (works : List (Work S)) (s : S) (n : Nat) (store : S) : Prop where
  store_eq : store = applied (works.take n) s
  returned : ∀ w ∈ works.take n, w.raises = false

variable (works : List (Work S)) (s : S)

/-- How far a process is whose wrappers have all put the old handler back. -/
def Reached (p : Process S) : Stage S → Prop
  | .idle => p.handler = .sigDfl ∧ Done works s p.begun p.store
  | .restored old => old = .sigDfl ∧ p.handler = .sigDfl ∧ Done works s p.begun p.store
  | .inside rest raises old =>
    old = .sigDfl ∧ p.handler = .wrapper p.begun ∧
      ∃ n t done, p.begun = n + 1 ∧ works[n]? = some (.wrapped (done ++ rest) raises) ∧ Done works s n t ∧
        p.store = done.foldl (fun s f => f s) t

structure Intact (p : Process S) : Prop where
  alive : p.ended = false
  todo : p.todo = works.drop p.begun
  reached : Reached works s p p.stage

def Stage.Keeps : Stage S → Prop
  | .idle => True
  | .inside _ _ old | .restored old => ∃ i, old = .wrapper i

/-- A wrapper that never put the old handler back is the handler for good. -/
structure Deaf (p : Process S) : Prop where
  alive : p.ended = false
  todo : p.todo = works.drop p.begun
  raised : ∃ w ∈ works.take p.begun, w.raises = true
  handler : ∃ i, p.handler = .wrapper i
  keeps : p.stage.Keeps

/-- The process ended after what it had begun. -/
structure Ended (p : Process S) : Prop where
  ended : p.ended = true
  done : Done works s p.begun p.store

variable {works : List (Work S)} {s : S} {p : Process S} {n : Nat} {t : S} {w : Work S}

theorem take_succ (hw : works[n]? = some w) : works.take (n + 1) = works.take n ++ [w] := by
  rw [List.take_add_one, hw, Option.toList_some]

theorem drop_of_todo {todo : List (Work S)} (h : w :: todo = works.drop n) :
    works[n]? = some w ∧ todo = works.drop (n + 1) := by
  constructor
  · have := congrArg (·[0]?) h
    simpa using this.symm
  · rw [← List.tail_drop, ← h, List.tail_cons]

theorem Done.succ (h : Done works s n t) (hw : works[n]? = some w) (hr : w.raises = false) :
    Done works s (n + 1) (w.effect t) := by
  refine ⟨?_, fun v hv => ?_⟩
  · rw [take_succ hw, applied, List.foldl_append, h.store_eq]
    rfl
  · rw [take_succ hw] at hv
    rcases List.mem_append.1 hv with hv | hv
    · exact h.returned v hv
    · rwa [List.mem_singleton.1 hv]

theorem Ended.step (h : Ended works s p) (e : Event) : Ended works s (p.step e) := by
  unfold Process.step
  rwa [if_pos h.ended]

/-! ## What a step keeps -/

theorem step_next (h : p.ended = false) : p.step .next = p.next := by
  rw [Process.step, h]
  rfl

theorem step_sigterm (h : p.ended = false) : p.step .sigterm = p.sigterm := by
  rw [Process.step, h]
  rfl

theorem intact_start : Intact works s (Process.start works s) where
  alive := rfl
  todo := rfl
  reached := ⟨rfl, by simp [Process.start, applied], by simp [Process.start]⟩

theorem step_of_inside {f : S → S} {rest : List (S → S)} {raises : Bool} {old : Handler} (halive : p.ended = false)
    (hstage : p.stage = .inside (f :: rest) raises old) :
    p.step .next = { p with store := f p.store, stage := .inside rest raises old } := by
  rw [step_next halive, Process.next, hstage]

theorem step_of_raise {old : Handler} (halive : p.ended = false) (hstage : p.stage = .inside [] true old) :
    p.step .next = { p with stage := .idle } := by
  rw [step_next halive, Process.next, hstage]

theorem Intact.inside {f : S → S} {rest : List (S → S)} {raises : Bool} {old : Handler} (h : Intact works s p)
    (hstage : p.stage = .inside (f :: rest) raises old) : Intact works s (p.step .next) := by
  obtain ⟨halive, htodo, hreached⟩ := h
  rw [hstage] at hreached
  obtain ⟨hold, hhandler, n, t, done, hbegun, hw, hdone, hstore⟩ := hreached
  rw [step_of_inside halive hstage]
  refine ⟨halive, htodo, hold, hhandler, n, t, done ++ [f], hbegun, ?_, hdone, ?_⟩
  · rw [hw, List.append_assoc, List.singleton_append]
  · rw [List.foldl_append, ← hstore]
    rfl

/-- A call that raises leaves its wrapper as the handler. -/
theorem Intact.raise {old : Handler} (h : Intact works s p) (hstage : p.stage = .inside [] true old) :
    Deaf works (p.step .next) := by
  obtain ⟨halive, htodo, hreached⟩ := h
  rw [hstage] at hreached
  obtain ⟨hold, hhandler, n, t, done, hbegun, hw, hdone, hstore⟩ := hreached
  rw [step_of_raise halive hstage]
  refine ⟨halive, htodo, ⟨.wrapped (done ++ []) true, ?_, rfl⟩, ⟨_, hhandler⟩, trivial⟩
  rw [hbegun, take_succ hw]
  exact List.mem_append_right _ (List.mem_singleton.2 rfl)

theorem Intact.next (h : Intact works s p) :
    Intact works s (p.step .next) ∨ Deaf works (p.step .next) ∨ Ended works s (p.step .next) := by
  obtain ⟨halive, htodo, hreached⟩ := h
  rw [step_next halive]
  unfold Process.next
  split
  · next hstage =>
    rw [hstage] at hreached
    obtain ⟨hhandler, hdone⟩ := hreached
    split
    · exact Or.inl ⟨halive, htodo, by rw [hstage]; exact ⟨hhandler, hdone⟩⟩
    · next f todo hp =>
      rw [hp] at htodo
      obtain ⟨hw, htodo⟩ := drop_of_todo htodo
      exact Or.inl ⟨halive, htodo, by rw [hstage]; exact ⟨hhandler, hdone.succ hw rfl⟩⟩
    · next body raises todo hp =>
      rw [hp] at htodo
      obtain ⟨hw, htodo⟩ := drop_of_todo htodo
      exact Or.inl ⟨halive, htodo, hhandler, rfl, p.begun, p.store, [], rfl, hw, hdone, rfl⟩
  · next f rest raises old hstage =>
    rw [← step_of_inside halive hstage]
    exact Or.inl (Intact.inside ⟨halive, htodo, hreached⟩ hstage)
  · next old hstage =>
    rw [← step_of_raise halive hstage]
    exact Or.inr (Or.inl (Intact.raise ⟨halive, htodo, hreached⟩ hstage))
  · next old hstage =>
    rw [hstage] at hreached
    obtain ⟨hold, hhandler, n, t, done, hbegun, hw, hdone, hstore⟩ := hreached
    refine Or.inl ⟨halive, htodo, hold, hold, ?_⟩
    have hdone := hdone.succ hw rfl
    rw [Work.effect, List.append_nil, ← hstore] at hdone
    rwa [hbegun]
  · next old hstage =>
    rw [hstage] at hreached
    obtain ⟨rfl, hhandler, hdone⟩ := hreached
    split
    · exact Or.inr (Or.inr ⟨rfl, hdone⟩)
    · exact Or.inl ⟨halive, htodo, hhandler, hdone⟩

theorem Intact.sigterm (h : Intact works s p) : Intact works s (p.step .sigterm) ∨ Ended works s (p.step .sigterm) := by
  obtain ⟨halive, htodo, hreached⟩ := h
  rw [step_sigterm halive]
  unfold Process.sigterm
  cases hstage : p.stage with
  | idle =>
    rw [hstage] at hreached
    rw [hreached.1]
    exact Or.inr ⟨rfl, hreached.2⟩
  | inside rest raises old =>
    rw [hstage] at hreached
    rw [hreached.2.1]
    exact Or.inl ⟨halive, htodo, hreached.1, rfl, hreached.2.2⟩
  | restored old =>
    rw [hstage] at hreached
    rw [hreached.2.1]
    exact Or.inr ⟨rfl, hreached.2.2⟩

theorem Deaf.step (h : Deaf works p) (e : Event) : Deaf works (p.step e) := by
  obtain ⟨halive, htodo, ⟨w, hw, hraises⟩, ⟨i, hhandler⟩, hkeeps⟩ := h
  cases e with
  | sigterm =>
    rw [step_sigterm halive, Process.sigterm, hhandler]
    exact ⟨halive, htodo, ⟨w, hw, hraises⟩, ⟨i, rfl⟩, hkeeps⟩
  | next =>
    have hmore : w ∈ works.take (p.begun + 1) :=
      (List.take_sublist_take_left (Nat.le_succ _)).subset hw
    rw [step_next halive]
    unfold Process.next
    split
    · split
      · exact ⟨halive, htodo, ⟨w, hw, hraises⟩, ⟨i, hhandler⟩, hkeeps⟩
      · next hp =>
        rw [hp] at htodo
        exact ⟨halive, (drop_of_todo htodo).2, ⟨w, hmore, hraises⟩, ⟨i, hhandler⟩, hkeeps⟩
      · next hp =>
        rw [hp] at htodo
        exact ⟨halive, (drop_of_todo htodo).2, ⟨w, hmore, hraises⟩, ⟨_, rfl⟩, i, hhandler⟩
    · next hstage =>
      rw [hstage] at hkeeps
      exact ⟨halive, htodo, ⟨w, hw, hraises⟩, ⟨i, hhandler⟩, hkeeps⟩
    · exact ⟨halive, htodo, ⟨w, hw, hraises⟩, ⟨i, hhandler⟩, trivial⟩
    · next hstage =>
      rw [hstage] at hkeeps
      exact ⟨halive, htodo, ⟨w, hw, hraises⟩, hkeeps, hkeeps⟩
    · next hstage =>
      rw [hstage] at hkeeps
      obtain ⟨j, rfl⟩ := hkeeps
      split
      · exact ⟨halive, htodo, ⟨w, hw, hraises⟩, ⟨i, hhandler⟩, trivial⟩
      · exact ⟨halive, htodo, ⟨w, hw, hraises⟩, ⟨i, hhandler⟩, trivial⟩

/-! ## Whole runs -/

inductive Phase (works : List (Work S)) (s : S) (p : Process S) : Prop where
  | intact (h : Intact works s p)
  | deaf (h : Deaf works p)
  | ended (h : Ended works s p)

theorem Phase.step (h : Phase works s p) (e : Event) : Phase works s (p.step e) := by
  cases h with
  | intact h =>
    cases e with
    | next =>
      rcases h.next with h | h | h
      · exact .intact h
      · exact .deaf h
      · exact .ended h
    | sigterm =>
      rcases h.sigterm with h | h
      · exact .intact h
      · exact .ended h
  | deaf h => exact .deaf (h.step e)
  | ended h => exact .ended (h.step e)

theorem phase_run (works : List (Work S)) (s : S) (es : List Event) : Phase works s ((Process.start works s).run es) :=
  List.foldlRecOn es _ (.intact intact_start) fun _ h e _ => h.step e

theorem run_append (p : Process S) (es es' : List Event) : p.run (es ++ es') = (p.run es).run es' :=
  List.foldl_append

theorem run_ended (h : p.ended = true) (es : List Event) : p.run es = p := by
  induction es with
  | nil => rfl
  | cons e es ih =>
    have hstep : p.step e = p := by
      unfold Process.step
      rw [if_pos h]
    rw [Process.run, List.foldl_cons, hstep]
    exact ih

theorem Deaf.run (h : Deaf works p) (es : List Event) : Deaf works (p.run es) :=
  List.foldlRecOn es _ h fun _ h e _ => h.step e

/-- Inside a call that will raise, and after it, SIGTERM is only noted. -/
theorem Intact.doomed {es : List Event} (h : Intact works s p) {rest : List (S → S)} {old : Handler}
    (hstage : p.stage = .inside rest true old) : (p.run es).ended = false := by
  induction es generalizing p rest with
  | nil => exact h.alive
  | cons e es ih =>
    rw [Process.run, List.foldl_cons, ← Process.run]
    cases e with
    | sigterm =>
      have hreached := h.reached
      rw [hstage] at hreached
      have hstep : p.step .sigterm = { p with caught := Function.update p.caught p.begun true } := by
        rw [step_sigterm h.alive, Process.sigterm, hreached.2.1]
      rcases h.sigterm with h' | h'
      · exact ih h' (by rw [hstep]; exact hstage)
      · have hended := h'.ended
        rw [hstep] at hended
        exact absurd (h.alive.symm.trans hended) (by decide)
    | next =>
      cases rest with
      | nil => exact ((h.raise hstage).run es).alive
      | cons f rest => exact ih (h.inside hstage) (by rw [step_of_inside h.alive hstage])

theorem ends_restored {es : List Event} (halive : p.ended = false) (hstage : p.stage = .restored .sigDfl)
    (hhandler : p.handler = .sigDfl) (hcaught : p.caught p.begun = true) (hes : 1 ≤ es.count .next) :
    (p.run es).ended = true := by
  rcases es with _ | ⟨e, es⟩
  · simp at hes
  · have hended : (p.step e).ended = true := by
      cases e with
      | next => simp [step_next halive, Process.next, hstage, hcaught]
      | sigterm => simp [step_sigterm halive, Process.sigterm, hhandler]
    rw [Process.run, List.foldl_cons, ← Process.run, run_ended hended]
    exact hended

/-- A noted SIGTERM ends the process when the call has returned. -/
theorem ends_inside {es : List Event} {rest : List (S → S)} (halive : p.ended = false)
    (hstage : p.stage = .inside rest false .sigDfl) (hhandler : p.handler = .wrapper p.begun)
    (hcaught : p.caught p.begun = true) (hes : rest.length + 2 ≤ es.count .next) : (p.run es).ended = true := by
  induction es generalizing p rest with
  | nil => simp at hes
  | cons e es ih =>
    rw [Process.run, List.foldl_cons, ← Process.run]
    cases e with
    | sigterm =>
      rw [step_sigterm halive, Process.sigterm, hhandler]
      exact ih halive hstage rfl (Function.update_self ..) (by simpa using hes)
    | next =>
      rw [List.count_cons_self] at hes
      rw [step_next halive, Process.next, hstage]
      cases rest with
      | nil => exact ends_restored halive rfl rfl hcaught (by simpa using hes)
      | cons f rest => exact ih halive rfl hhandler hcaught (by simpa using hes)

/-- The steps a work takes inside its wrapper. -/
def Work.steps : Work S → Nat
  | .plain _ => 0
  | .wrapped body _ => body.length

/-- SIGTERM ends the script, at once or after the call it is in, unless a call has raised
or is to: then its wrapper answers for good, and nothing ends the script. -/
theorem sigterm_answered_iff {pre post : List Event} (halive : ((Process.start works s).run pre).ended = false)
    (hpost : ∀ w ∈ works, w.steps + 2 ≤ post.count .next) :
    ((Process.start works s).run (pre ++ .sigterm :: post)).ended = true ↔
      ∀ w ∈ works.take ((Process.start works s).run pre).begun, w.raises = false := by
  rw [run_append]
  generalize hp : (Process.start works s).run pre = p at halive
  have hphase : Phase works s p := hp ▸ phase_run works s pre
  cases hphase with
  | ended h => exact absurd (halive.symm.trans h.ended) (by decide)
  | deaf h =>
    obtain ⟨w, hw, hraises⟩ := h.raised
    refine iff_of_false ?_ fun hall => ?_
    · rw [(h.run _).alive]
      decide
    · exact absurd ((hall w hw).symm.trans hraises) (by decide)
  | intact h =>
    have hreached := h.reached
    cases hstage : p.stage with
    | idle =>
      rw [hstage] at hreached
      have hended : (p.step .sigterm).ended = true := by rw [step_sigterm halive, Process.sigterm, hreached.1]
      refine iff_of_true ?_ hreached.2.returned
      rw [Process.run, List.foldl_cons, ← Process.run, run_ended hended, hended]
    | restored old =>
      rw [hstage] at hreached
      have hended : (p.step .sigterm).ended = true := by rw [step_sigterm halive, Process.sigterm, hreached.2.1]
      refine iff_of_true ?_ hreached.2.2.returned
      rw [Process.run, List.foldl_cons, ← Process.run, run_ended hended, hended]
    | inside rest raises old =>
      rw [hstage] at hreached
      obtain ⟨rfl, hhandler, n, t, done, hbegun, hw, hdone, hstore⟩ := hreached
      cases raises with
      | true =>
        refine iff_of_false ?_ fun hall => ?_
        · rw [h.doomed hstage]
          decide
        · have hmem : Work.wrapped (done ++ rest) true ∈ works.take p.begun := by
            rw [hbegun, take_succ hw]
            exact List.mem_append_right _ (List.mem_singleton.2 rfl)
          exact absurd (hall _ hmem) (by simp [Work.raises])
      | false =>
        refine iff_of_true ?_ ?_
        · have hlen := hpost _ (List.mem_of_getElem? hw)
          rw [Process.run, List.foldl_cons, ← Process.run, step_sigterm halive, Process.sigterm, hhandler]
          refine ends_inside halive hstage rfl (Function.update_self ..) (Nat.le_trans ?_ hlen)
          simp only [Work.steps, List.length_append]
          omega
        · rw [hbegun]
          exact (hdone.succ hw rfl).returned

end Progress

theorem sigterm_answered_iff_twice :
    ((Process.start [.wrapped [(· + 1), (· * 2)] false, .plain (· + 10)] 3).run
      ([.next, .next] ++ .sigterm :: [.next, .next, .next, .next])).ended = true :=
  (sigterm_answered_iff (by rfl) (by simp [Work.steps])).2
    (by simp [Process.start, Process.run, Process.step, Process.next, Work.raises])

/-! ## The files of a datastore -/

section Datastores
variable {V : Type} (w : WorkflowData V)

/-- A file is replaced by one that has its first `n` characters, and the rest follows. -/
def write (n : Nat) (path text : Str) : List (Files → Files) :=
  [fun fs => Function.update fs path (some (text.take n)), fun fs => Function.update fs path (some text)]

def unlink (path : Str) : Files → Files := fun fs => Function.update fs path none

/-- What `store_data` and `stored_data` do to the files. Only the former's is wrapped. -/
def work (n : Nat) : Call V → Work Files
  | .stored name => .plain fun fs => (storedData w fs name).1
  | .store name data serializer =>
    let serializer_name := serializerName w serializer
    match refusal w name serializer_name with
    | some _ => .plain id
    | none =>
      match data with
      | none => .wrapped [unlink (metadataPath w.datadir name), unlink (dataPath w.datadir name serializer_name)] false
      | some v =>
        match (w.manager.serializer serializer_name).bind (·.dump v) with
        | none => .wrapped (write n (metadataPath w.datadir name) serializer_name) true
        | some text =>
          .wrapped (write n (metadataPath w.datadir name) serializer_name ++
            write n (dataPath w.datadir name serializer_name) text) false

variable {w}

/-- The steps of a call come to what the call does. -/
theorem work_effect (n : Nat) (a : Call V) (fs : Files) : (work w n a).effect fs = (step w fs a).1 := by
  cases a with
  | stored name => rfl
  | store name data serializer =>
    simp only [work, step, storeData]
    cases refusal w name (serializerName w serializer) with
    | some e => rfl
    | none =>
      cases data with
      | none => rfl
      | some v =>
        cases hdump : (w.manager.serializer (serializerName w serializer)).bind (·.dump v) <;>
          simp [hdump, Work.effect, write]

/-- Some calls, each with the number of characters it writes out before it renames. -/
def works (w : WorkflowData V) (as : List (Call V × Nat)) : List (Work Files) := as.map fun a => work w a.2 a.1

theorem applied_works (as : List (Call V × Nat)) (fs : Files) :
    applied (works w as) fs = final (step w) fs (as.map Prod.fst) := by
  induction as generalizing fs with
  | nil => rfl
  | cons a as ih =>
    rw [works, List.map_cons, applied, List.foldl_cons, work_effect]
    exact ih _

/-- However SIGTERM falls among the statements of some calls, a process that it ends does so
after the calls it began, and the files it leaves answer later ones as the map does. The
names are file names with one serializer each, and there was no datastore. -/
theorem stored_after_sigterm {fs : Files} (hf : Fresh w fs) {as : List (Call V × Nat)} {bs : List (Call V)}
    (hn : ∀ a ∈ as.map Prod.fst ++ bs, IsName a.name) (hone : OneSerializer w (as.map Prod.fst ++ bs))
    {es : List Event} (hended : ((Process.start (works w as) fs).run es).ended = true) :
    outputs (step w) ((Process.start (works w as) fs).run es).store bs =
      outputs (storeStep w)
        (final (storeStep w) (fun _ => none)
          ((as.take ((Process.start (works w as) fs).run es).begun).map Prod.fst)) bs := by
  have hphase : Phase (works w as) fs ((Process.start (works w as) fs).run es) := phase_run _ _ _
  generalize (Process.start (works w as) fs).run es = p at *
  have hdone : Done (works w as) fs p.begun p.store := by
    cases hphase with
    | intact h => exact absurd (h.alive.symm.trans hended) (by decide)
    | deaf h => exact absurd (h.alive.symm.trans hended) (by decide)
    | ended h => exact h.done
  have hstore : p.store = final (step w) fs ((as.take p.begun).map Prod.fst) := by
    rw [hdone.store_eq, ← applied_works, works, works, List.map_take]
  have hsub : ∀ a ∈ (as.take p.begun).map Prod.fst, a ∈ as.map Prod.fst ++ bs := by
    intro a ha
    rw [List.map_take] at ha
    exact List.mem_append_left _ (List.mem_of_mem_take ha)
  have hholds := (outputs_holds hn hone hsub (holds_fresh hf)).2
  rw [hstore]
  exact (outputs_holds hn hone (fun a ha => List.mem_append_right _ ha) hholds).1

end Datastores

def counts : List (Call Nat × Nat) :=
  [(.store "count".toList (some 41) [], 1), (.store "count".toList (some 42) [], 0)]

/-- SIGTERM comes when the serializer's name is written out only in part. -/
def interrupted : List Event := [.next, .next, .sigterm, .next, .next, .next, .next, .next]

theorem stored_after_sigterm_count :
    outputs (step numbers) ((Process.start (works numbers counts) fun _ => none).run interrupted).store
      [.stored "count".toList] = [.ok (some 41)] := by
  have hn : ∀ a ∈ counts.map Prod.fst ++ [.stored "count".toList], IsName a.name := by
    simp [counts, IsName, Call.name]
  have hone : OneSerializer numbers (counts.map Prod.fst ++ [.stored "count".toList]) := by
    intro a ha hf
    simp only [counts, List.map_cons, List.map_nil, List.cons_append, List.nil_append, List.mem_cons, List.not_mem_nil,
      or_false] at ha
    rcases ha with rfl | rfl | rfl <;> simp [Fails, numbers, jsonNumbers] at hf
  have hended : ((Process.start (works numbers counts) fun _ => none).run interrupted).ended = true := by
    decide +kernel
  exact (stored_after_sigterm (fun _ _ => ⟨rfl, fun _ _ _ _ => rfl⟩) hn hone hended).trans (by decide +kernel)

end ProGuide.Workflow.Uninterruptible
