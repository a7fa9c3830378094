import Mathlib.Data.List.Count
import Mathlib.Data.List.Nodup
import ProGuide.Lib.Runs
/-!
# The chat server's event loop

`main` of `server.cpp` beside the kernel it runs on: connections complete in the
listener's backlog between any two calls of the server. The listener is
registered edge-triggered, so an arrival puts one event on epoll's ready list,
unless one is there already, and every event is answered by one `accept`.
-/
open ProGuide.Lib.Runs

namespace ProGuide.Server

/-- A completed connection, by its number; also its descriptor once accepted. -/
abbrev Conn := Nat

/-- An event of the table: the descriptor it is about. -/
inductive Ev where
  | listener
  | client (c : Conn)
  deriving DecidableEq, Repr

/-- Where the server is; `events` are those of the last `epoll_wait` not yet
handled. A `clientfd` of none is the `-1` of a failed `accept`. -/
inductive Pc where
  | registering
  | waiting
  | dispatching (events : List Ev)
  | adding (clientfd : Option Conn) (events : List Ev)
  | pushing (clientfd : Option Conn) (events : List Ev)
  | sending (clientfd : Option Conn) (events : List Ev)
  | stopped
  deriving DecidableEq, Repr

/-- The kernel's tables and the server's list. The last three fields record all
that ever completed, was accepted and was appended, in order. -/
structure State where
  pc : Pc := .registering
  backlog : List Conn := []
  ready : List Ev := []
  registered : List Conn := []
  clients_list : List (Option Conn) := []
  arrived : List Conn := []
  accepted : List Conn := []
  appended : List (Option Conn) := []
  deriving DecidableEq, Repr

/-- The argument of `listen`; the kernel keeps one connection more. -/
def listenBacklog : Nat := 5

inductive Action where
  /-- A connection completes in the backlog. -/
  | arrive (c : Conn)
  /-- A registered client sends something or hangs up. -/
  | readable (c : Conn)
  /-- The server's next call returns. -/
  | serve
  /-- `sendBroadcastmessage` returns, leaving a list of clients and having closed
  some of them. -/
  | broadcast (clients : List (Option Conn)) (closed : List Conn)
  /-- The server's next call returns an error. -/
  | fail
  deriving DecidableEq, Repr

/-- An event goes on the ready list unless it is there. -/
def notify (e : Ev) (ready : List Ev) : List Ev := if e ∈ ready then ready else ready ++ [e]

def isClosed (closed : List Conn) : Ev → Bool
  | .client c => c ∈ closed
  | .listener => false

/-- The next call of the server when it succeeds, for a table of `n` events. -/
def serve (n : Nat) (s : State) : Option State :=
  match s.pc with
  | .registering =>
    -- a descriptor that is ready when it is added has its event at once
    some { s with pc := .waiting, ready := if s.backlog = [] then s.ready else notify .listener s.ready }
  | .waiting =>
    if s.ready = [] then none
    else some { s with pc := .dispatching (s.ready.take n), ready := s.ready.drop n }
  | .dispatching [] => some { s with pc := .waiting }
  | .dispatching (.listener :: es) =>
    match s.backlog with
    | [] => some { s with pc := .adding none es }
    | c :: rest => some { s with pc := .adding (some c) es, backlog := rest, accepted := s.accepted ++ [c] }
  | .dispatching (.client _ :: _) => none
  | .adding c es => some { s with pc := .pushing c es, registered := s.registered ++ c.toList }
  | .pushing c es =>
    some { s with pc := .sending c es, clients_list := s.clients_list ++ [c], appended := s.appended ++ [c] }
  | .sending c es => some { s with pc := if c = none then .stopped else .dispatching es }
  | .stopped => none

def step (n : Nat) (s : State) : Action → Option State
  | .arrive c =>
    if s.pc = .stopped ∨ c ∈ s.arrived ∨ listenBacklog < s.backlog.length then none
    else some { s with
      backlog := s.backlog ++ [c]
      arrived := s.arrived ++ [c]
      ready := if s.pc = .registering then s.ready else notify .listener s.ready }
  | .readable c =>
    if s.pc = .stopped ∨ c ∉ s.registered then none
    else some { s with ready := notify (.client c) s.ready }
  | .serve => serve n s
  | .broadcast clients closed =>
    match s.pc with
    | .dispatching (.client _ :: es) =>
      some { s with pc := .dispatching es, clients_list := clients, ready := s.ready.filter (!isClosed closed ·) }
    | _ => none
  | .fail =>
    match s.pc with
    | .waiting | .sending _ _ | .dispatching (.client _ :: _) => some { s with pc := .stopped }
    | _ => none

/-- Blocked in `epoll_wait` with no event pending. -/
def Blocked (s : State) : Prop := s.pc = .waiting ∧ s.ready = []

/-- The backlog is empty, and every connection completed so far was accepted,
registered and appended exactly once. -/
structure AllServed (s : State) : Prop where
  backlog : s.backlog = []
  accepted : ∀ c ∈ s.arrived, s.accepted.count c = 1
  registered : ∀ c ∈ s.arrived, s.registered.count c = 1
  appended : ∀ c ∈ s.arrived, s.appended.count (some c) = 1

/-- An arrival now adds no event: one of the listener is already waiting to be
reported, or will be when the listener is added. -/
def Coalesces (s : State) : Prop :=
  if s.pc = .registering then s.backlog ≠ [] else .listener ∈ s.ready

instance (s : State) : Decidable (Coalesces s) := by unfold Coalesces; infer_instance

/-! ## Counting arrivals that add no event -/

/-- The arrivals of a step that add no event. -/
def missed (s : State) : Action → Nat
  | .arrive _ => if Coalesces s then 1 else 0
  | _ => 0

/-- The listener events the server still has to handle. -/
def Pc.events : Pc → List Ev
  | .dispatching es | .adding _ es | .pushing _ es | .sending _ es => es
  | _ => []

/-- The accepts that are still to come. -/
def owed (s : State) : Nat :=
  if s.pc = .registering then min s.backlog.length 1 else s.ready.count .listener + s.pc.events.count .listener

theorem owed_running {s : State} (h : s.pc ≠ .registering) :
    owed s = s.ready.count .listener + s.pc.events.count .listener := if_neg h

/-- The connection accepted and not yet registered. -/
def Pc.adds : Pc → List Conn
  | .adding c _ => c.toList
  | _ => []

/-- The connection registered and not yet appended. -/
def Pc.pushes : Pc → List Conn
  | .pushing c _ => c.toList
  | _ => []

/-- The server holds the `-1` of a failed `accept`. -/
def Pc.refused : Pc → Bool
  | .adding c _ | .pushing c _ | .sending c _ => c = none
  | _ => false

/-- What holds after a run in which `m` arrivals added no event. -/
structure Inv (m : Nat) (s : State) : Prop where
  balance : s.pc ≠ .stopped → s.backlog.length = owed s + m
  fresh : s.pc = .registering → s.ready = [] ∧ s.registered = []
  accepts : s.pc.refused = false
  arrived : s.arrived = s.accepted ++ s.backlog
  registered : s.accepted = s.registered ++ s.pc.adds
  appended : s.registered.map some = s.appended ++ s.pc.pushes.map some
  distinct : s.arrived.Nodup

theorem count_notify_client (c : Conn) (ready : List Ev) :
    (notify (.client c) ready).count .listener = ready.count .listener := by
  unfold notify
  split
  · rfl
  · simp

theorem count_notify_listener {ready : List Ev} (h : .listener ∉ ready) :
    (notify .listener ready).count .listener = ready.count .listener + 1 := by
  rw [notify, if_neg h]
  simp

theorem count_filter_closed (closed : List Conn) (ready : List Ev) :
    (ready.filter (!isClosed closed ·)).count .listener = ready.count .listener :=
  List.count_filter rfl

/-- An arrival adds one to the backlog, and an event unless it is missed. -/
theorem owed_arrive {n : Nat} {s t : State} {c : Conn} (h : step n s (.arrive c) = some t) : owed t + missed s (.arrive c) = owed s + 1 := by
  simp only [step, Option.ite_none_left_eq_some, Option.some.injEq] at h
  obtain ⟨-, rfl⟩ := h
  unfold owed missed Coalesces
  by_cases hpc : s.pc = .registering
  · simp only [hpc, if_true, List.length_append, List.length_singleton]
    cases s.backlog <;> simp
  · simp only [hpc, if_false]
    by_cases hl : Ev.listener ∈ s.ready
    · simp [hl, notify]
    · rw [count_notify_listener hl, if_neg hl]
      omega

theorem inv_arrive {n m : Nat} {s t : State} {c : Conn} (hi : Inv m s) (h : step n s (.arrive c) = some t) :
    Inv (m + missed s (.arrive c)) t := by
  have howed := owed_arrive h
  simp only [step, Option.ite_none_left_eq_some, Option.some.injEq, not_or] at h
  obtain ⟨⟨hpc, hnew, -⟩, rfl⟩ := h
  refine ⟨fun _ => ?_, fun hr => ?_, hi.accepts, ?_, hi.registered, hi.appended, ?_⟩
  · have := hi.balance hpc
    simp only [List.length_append, List.length_singleton]
    omega
  · have hr' : s.pc = .registering := hr
    obtain ⟨hready, hreg⟩ := hi.fresh hr'
    refine ⟨?_, hreg⟩
    rw [if_pos hr']
    exact hready
  · simp only [hi.arrived, List.append_assoc]
  · exact List.nodup_append.2 ⟨hi.distinct, by simp, fun a ha b hb => by
      obtain rfl := List.mem_singleton.1 hb
      rintro rfl
      exact hnew ha⟩

theorem inv_readable {n m : Nat} {s t : State} {c : Conn} (hi : Inv m s) (h : step n s (.readable c) = some t) :
    Inv m t := by
  simp only [step, Option.ite_none_left_eq_some, Option.some.injEq, not_or, not_not] at h
  obtain ⟨⟨hpc, hreg⟩, rfl⟩ := h
  refine ⟨fun _ => ?_, fun hr => ?_, hi.accepts, hi.arrived, hi.registered, hi.appended, hi.distinct⟩
  · have := hi.balance hpc
    simpa [owed, count_notify_client] using this
  · rw [(hi.fresh hr).2] at hreg
    cases hreg

theorem inv_broadcast {n m : Nat} {s t : State} {clients : List (Option Conn)} {closed : List Conn} (hi : Inv m s)
    (h : step n s (.broadcast clients closed) = some t) : Inv m t := by
  simp only [step] at h
  split at h
  · next c es hpc =>
    obtain rfl := Option.some.inj h
    have hbal := hi.balance (by simp [hpc])
    have hreg := hi.registered
    have happ := hi.appended
    rw [hpc] at hreg happ
    refine ⟨fun _ => ?_, fun hr => ?_, rfl, hi.arrived, hreg, happ, hi.distinct⟩
    · simpa [owed, hpc, Pc.events, count_filter_closed] using hbal
    · cases hr
  · cases h

theorem inv_fail {n m : Nat} {s t : State} (hi : Inv m s) (h : step n s .fail = some t) : Inv m t := by
  have hcases : t = { s with pc := .stopped } ∧ s.pc.adds = [] ∧ s.pc.pushes = [] := by
    simp only [step] at h
    split at h
    · next hpc => exact ⟨(Option.some.inj h).symm, by rw [hpc]; rfl, by rw [hpc]; rfl⟩
    · next hpc => exact ⟨(Option.some.inj h).symm, by rw [hpc]; rfl, by rw [hpc]; rfl⟩
    · next hpc => exact ⟨(Option.some.inj h).symm, by rw [hpc]; rfl, by rw [hpc]; rfl⟩
    · cases h
  obtain ⟨rfl, hadds, hpushes⟩ := hcases
  have hreg := hi.registered
  have happ := hi.appended
  rw [hadds] at hreg
  rw [hpushes] at happ
  refine ⟨fun hs => absurd rfl hs, fun hr => ?_, rfl, hi.arrived, hreg, happ, hi.distinct⟩
  cases hr

theorem inv_serve {n m : Nat} {s t : State} (hi : Inv m s) (h : serve n s = some t) : Inv m t := by
  have hreg := hi.registered
  have happ := hi.appended
  have hacc := hi.accepts
  unfold serve at h
  split at h
  case h_1 hpc =>
    -- the listener is added, and reported at once if a connection is there
    obtain rfl := Option.some.inj h
    rw [hpc] at hreg happ
    have hbal := hi.balance (by simp [hpc])
    refine ⟨fun _ => ?_, fun hr => ?_, rfl, hi.arrived, hreg, happ, hi.distinct⟩
    · rw [owed, if_pos hpc] at hbal
      rw [owed_running (by simp), (hi.fresh hpc).1]
      show s.backlog.length = (if s.backlog = [] then [] else notify .listener []).count .listener + 0 + m
      by_cases hb : s.backlog = []
      · rw [if_pos hb, hb]
        rw [hb] at hbal
        exact hbal
      · rw [if_neg hb, count_notify_listener List.not_mem_nil, List.count_nil]
        have := List.length_pos_iff.2 hb
        omega
    · cases hr
  case h_2 hpc =>
    split at h
    · cases h
    · obtain rfl := Option.some.inj h
      rw [hpc] at hreg happ
      have hbal := hi.balance (by simp [hpc])
      refine ⟨fun _ => ?_, fun hr => ?_, rfl, hi.arrived, hreg, happ, hi.distinct⟩
      · have hsplit : (s.ready.take n).count .listener + (s.ready.drop n).count .listener = s.ready.count .listener := by
          rw [← List.count_append, List.take_append_drop]
        rw [owed_running (by simp [hpc]), hpc] at hbal
        rw [owed_running (by simp)]
        simp only [Pc.events, List.count_nil] at hbal ⊢
        omega
      · cases hr
  case h_3 hpc =>
    obtain rfl := Option.some.inj h
    rw [hpc] at hreg happ
    have hbal := hi.balance (by simp [hpc])
    refine ⟨fun _ => ?_, fun hr => ?_, rfl, hi.arrived, hreg, happ, hi.distinct⟩
    · simpa [owed, hpc, Pc.events] using hbal
    · cases hr
  case h_4 es hpc =>
    rw [hpc] at hreg happ
    have hbal := hi.balance (by simp [hpc])
    rw [owed_running (by simp [hpc]), hpc] at hbal
    simp only [Pc.events, List.count_cons_self] at hbal
    split at h
    · -- an event still to be handled has a connection in the backlog
      next hb =>
      rw [hb, List.length_nil] at hbal
      omega
    · next c rest hb =>
      obtain rfl := Option.some.inj h
      refine ⟨fun _ => ?_, fun hr => ?_, rfl, ?_, ?_, happ, hi.distinct⟩
      · rw [hb, List.length_cons] at hbal
        rw [owed_running (by simp)]
        simp only [Pc.events]
        omega
      · cases hr
      · simp [hi.arrived, hb]
      · rw [hreg]
        simp [Pc.adds]
  case h_5 => cases h
  case h_6 c es hpc =>
    obtain rfl := Option.some.inj h
    rw [hpc] at hreg happ hacc
    have hbal := hi.balance (by simp [hpc])
    refine ⟨fun _ => ?_, fun hr => ?_, hacc, hi.arrived, ?_, ?_, hi.distinct⟩
    · simpa [owed, hpc, Pc.events] using hbal
    · cases hr
    · rw [hreg]
      simp [Pc.adds]
    · rw [List.map_append, happ]
      simp [Pc.pushes]
  case h_7 c es hpc =>
    obtain rfl := Option.some.inj h
    rw [hpc] at hreg happ hacc
    have hbal := hi.balance (by simp [hpc])
    refine ⟨fun _ => ?_, fun hr => ?_, hacc, hi.arrived, hreg, ?_, hi.distinct⟩
    · simpa [owed, hpc, Pc.events] using hbal
    · cases hr
    · obtain ⟨c, rfl⟩ : ∃ d, c = some d := Option.ne_none_iff_exists'.1 (by simpa [Pc.refused] using hacc)
      rw [happ]
      simp [Pc.pushes]
  case h_8 c es hpc =>
    have hc : c ≠ none := by
      rw [hpc] at hacc
      simpa [Pc.refused] using hacc
    rw [if_neg hc] at h
    obtain rfl := Option.some.inj h
    rw [hpc] at hreg happ
    have hbal := hi.balance (by simp [hpc])
    refine ⟨fun _ => ?_, fun hr => ?_, rfl, hi.arrived, hreg, happ, hi.distinct⟩
    · simpa [owed, hpc, Pc.events] using hbal
    · cases hr
  case h_9 => cases h

theorem inv_step (n m : Nat) (s : State) (a : Action) (t : State) (hi : Inv m s) (h : step n s a = some t) :
    Inv (m + missed s a) t := by
  cases a with
  | arrive c => exact inv_arrive hi h
  | readable c => exact inv_readable hi h
  | serve => exact inv_serve hi h
  | broadcast clients closed => exact inv_broadcast hi h
  | fail => exact inv_fail hi h

theorem inv_start : Inv 0 {} where
  balance _ := rfl
  fresh _ := ⟨rfl, rfl⟩
  accepts := rfl
  arrived := rfl
  registered := rfl
  appended := rfl
  distinct := List.nodup_nil

/-! ## Blocked states -/

theorem missed_eq_zero (s : State) (a : Action) : missed s a = 0 ↔ ∀ c, a = .arrive c → ¬ Coalesces s := by
  cases a <;> simp [missed]

/-- A blocked server has left exactly the missed arrivals in the backlog. -/
theorem blocked_backlog {m : Nat} {s : State} (hi : Inv m s) (hb : Blocked s) : s.backlog.length = m := by
  have hbal := hi.balance (by simp [hb.1])
  rw [owed_running (by simp [hb.1]), hb.1, hb.2] at hbal
  simpa [Pc.events] using hbal

theorem blocked_served {m : Nat} {s : State} (hi : Inv m s) (hb : Blocked s) (hempty : s.backlog = []) : AllServed s := by
  have hacc : s.accepted = s.arrived := by rw [hi.arrived, hempty, List.append_nil]
  have hreg : s.registered = s.arrived := by
    have h := hi.registered
    rw [hb.1] at h
    rw [← hacc, h]
    exact (List.append_nil _).symm
  have happ : s.appended = s.arrived.map some := by
    have h := hi.appended
    rw [hb.1] at h
    rw [← hreg, h]
    exact (List.append_nil _).symm
  have honce : ∀ c ∈ s.arrived, s.arrived.count c = 1 := fun c hc => List.count_eq_one_of_mem hi.distinct hc
  refine ⟨hempty, ?_, ?_, ?_⟩ <;> intro c hc
  · rw [hacc]
    exact honce c hc
  · rw [hreg]
    exact honce c hc
  · rw [happ, List.count_map_of_injective _ _ fun _ _ => Option.some.inj]
    exact honce c hc

/-- Whenever the server is blocked with no event pending, every connection was
served exactly when none arrived while an event of the listener was waiting to
be reported. -/
theorem blocked_allServed_iff {n : Nat} {as : List Action} {s : State} (hrun : exec (step n) {} as = some s)
    (hb : Blocked s) : AllServed s ↔
      ∀ pre c post u, as = pre ++ .arrive c :: post → exec (step n) {} pre = some u → ¬ Coalesces u := by
  have hzero (m : Nat) (hi : Inv m s) : AllServed s ↔ m = 0 := by
    rw [← blocked_backlog hi hb, List.length_eq_zero_iff]
    exact ⟨AllServed.backlog, blocked_served hi hb⟩
  rw [exec_iff (inv_step n) inv_start hrun hzero]
  constructor
  · intro h pre c post u heq hpre
    exact (missed_eq_zero u _).1 (h pre _ post u heq hpre) c rfl
  · intro h pre a post u heq hpre
    rw [missed_eq_zero]
    rintro c rfl
    exact h pre c post u heq hpre

/-- The calls that answer one listener event, from `epoll_wait` back to it. -/
def round : List Action := List.replicate 6 .serve

def oneArrival : List Action := [.serve, .arrive 0] ++ round

/-- Two connections complete before the server is in `epoll_wait`. -/
def twoArrivals : List Action := [.serve, .arrive 0, .arrive 1] ++ round

def idle : State where
  pc := .waiting
  registered := [0]
  clients_list := [some 0]
  arrived := [0]
  accepted := [0]
  appended := [some 0]

/-- The same with a second connection, of which the server knows nothing. -/
def stuck : State := { idle with backlog := [1], arrived := [0, 1] }

theorem blocked_allServed_idle : AllServed idle ↔
    ∀ pre c post u, oneArrival = pre ++ .arrive c :: post → exec (step 5000) {} pre = some u → ¬ Coalesces u := by
  have hrun : exec (step 5000) {} oneArrival = some idle := by decide
  exact blocked_allServed_iff hrun ⟨rfl, rfl⟩

/-- One event is reported for the two connections, one is accepted, and the
server blocks with the other in the backlog. -/
theorem second_arrival_stuck :
    exec (step 5000) {} twoArrivals = some stuck ∧ Blocked stuck ∧ ¬ AllServed stuck := by
  refine ⟨by decide, ⟨rfl, rfl⟩, fun h => ?_⟩
  have hempty := h.backlog
  cases hempty

/-! ## Order -/

theorem reachable_inv {n : Nat} {as : List Action} {s : State} (hrun : exec (step n) {} as = some s) :
    Inv (tally (step n) missed {} as) s := by
  have h := exec_invariant (inv_step n) inv_start hrun
  rwa [Nat.zero_add] at h

/-- No `accept` ever fails, and connections are accepted, registered and appended in the
order in which they completed, none of them twice. -/
theorem served_in_order {n : Nat} {as : List Action} {s : State} (hrun : exec (step n) {} as = some s) :
    s.pc.refused = false ∧ s.arrived.Nodup ∧ s.accepted <+: s.arrived ∧ s.registered <+: s.accepted ∧
      s.appended <+: s.registered.map some := by
  have hi := reachable_inv hrun
  refine ⟨hi.accepts, hi.distinct, ?_, ?_, ?_⟩
  · rw [hi.arrived]
    exact List.prefix_append _ _
  · rw [hi.registered]
    exact List.prefix_append _ _
  · rw [hi.appended]
    exact List.prefix_append _ _

theorem served_in_order_idle : idle.pc.refused = false ∧ idle.arrived.Nodup ∧ idle.accepted <+: idle.arrived ∧
    idle.registered <+: idle.accepted ∧ idle.appended <+: idle.registered.map some :=
  @served_in_order 5000 oneArrival idle (by decide)

/-! ## The backlog of a blocked server -/

/-- From one time the server is blocked to a later one, the backlog grows by the arrivals
that add no event, and never shrinks; what is in it are the last to have arrived. -/
theorem never_catches_up {n : Nat} {pre post : List Action} {u s : State} (hu : exec (step n) {} pre = some u)
    (hs : exec (step n) u post = some s) (hbu : Blocked u) (hbs : Blocked s) :
    s.backlog.length = u.backlog.length + tally (step n) missed u post ∧
      s.backlog = s.arrived.drop (s.arrived.length - s.backlog.length) := by
  have hrun : exec (step n) {} (pre ++ post) = some s := by rw [exec_append hu, hs]
  have hi := reachable_inv hrun
  refine ⟨?_, ?_⟩
  · rw [blocked_backlog hi hbs, blocked_backlog (reachable_inv hu) hbu, tally_append hu]
  · have hlen : s.arrived.length - s.backlog.length = s.accepted.length := by
      rw [hi.arrived, List.length_append]
      omega
    rw [hlen, hi.arrived, List.drop_left]

/-- The second connection is left, and a third is served in its turn: the second. -/
def thirdArrival : List Action := [.arrive 2] ++ round

theorem never_catches_up_third : exec (step 5000) stuck thirdArrival = some { idle with
      backlog := [2], registered := [0, 1], clients_list := [some 0, some 1], arrived := [0, 1, 2], accepted := [0, 1],
      appended := [some 0, some 1] } ∧
    [2] = [0, 1, 2].drop ([0, 1, 2].length - [2].length) := by
  have hrun : exec (step 5000) stuck thirdArrival = some { idle with
      backlog := [2], registered := [0, 1], clients_list := [some 0, some 1], arrived := [0, 1, 2], accepted := [0, 1],
      appended := [some 0, some 1] } := by decide
  have hstuck : exec (step 5000) {} twoArrivals = some stuck := by decide
  exact ⟨hrun, (never_catches_up hstuck hrun ⟨rfl, rfl⟩ ⟨rfl, rfl⟩).2⟩

/-! ## The next arrival -/

/-- An arrival that adds no event finds one of the listener still to be handled. -/
theorem owed_pos {s : State} (h : Coalesces s) : 0 < owed s := by
  unfold Coalesces at h
  unfold owed
  split at h
  · rename_i hpc
    have := List.length_pos_iff.2 h
    rw [if_pos hpc]
    omega
  · rename_i hpc
    have := List.count_pos_iff.2 h
    rw [if_neg hpc]
    omega

/-- As the backlog is bounded, so are the arrivals that add no event. -/
theorem missed_step (n m : Nat) (s : State) (a : Action) (t : State) (h : Inv m s ∧ m ≤ listenBacklog)
    (hstep : step n s a = some t) : Inv (m + missed s a) t ∧ m + missed s a ≤ listenBacklog := by
  obtain ⟨hi, hm⟩ := h
  refine ⟨inv_step n m s a t hi hstep, ?_⟩
  cases a with
  | arrive c =>
    simp only [step, Option.ite_none_left_eq_some, not_or] at hstep
    obtain ⟨⟨hpc, -, hlen⟩, -⟩ := hstep
    have hbal := hi.balance hpc
    rw [missed]
    split
    · next hco =>
      have := owed_pos hco
      omega
    · exact hm
  | _ => exact hm

theorem missed_le {n : Nat} {as : List Action} {s : State} (hrun : exec (step n) {} as = some s) :
    tally (step n) missed {} as ≤ listenBacklog := by
  have hstart : Inv 0 {} ∧ 0 ≤ listenBacklog := ⟨inv_start, Nat.zero_le _⟩
  have h := (exec_invariant (missed_step n) hstart hrun).2
  rwa [Nat.zero_add] at h

/-- The calls of a server that is told of an arrival: it accepts the oldest connection
of the backlog. -/
theorem exec_round {n : Nat} (hn : 0 < n) {s : State} (hb : s.pc = .waiting) (hready : s.ready = [.listener]) {c : Conn}
    {rest : List Conn} (hback : s.backlog = c :: rest) : exec (step n) s round = some { s with
      backlog := rest
      ready := []
      registered := s.registered ++ [c]
      clients_list := s.clients_list ++ [some c]
      accepted := s.accepted ++ [c]
      appended := s.appended ++ [some c] } := by
  obtain ⟨k, rfl⟩ := Nat.exists_eq_succ_of_ne_zero (Nat.ne_of_gt hn)
  simp [round, List.replicate, exec, step, serve, hb, hready, hback]

/-- A blocked server always takes one more connection, and answers it by serving the
oldest in the backlog, after which it is blocked again. -/
theorem arrival_serves_oldest {n : Nat} (hn : 0 < n) {as : List Action} {s : State}
    (hrun : exec (step n) {} as = some s) (hb : Blocked s) {d : Conn} (hd : d ∉ s.arrived) :
    ∃ c rest, s.backlog ++ [d] = c :: rest ∧ exec (step n) s (.arrive d :: round) = some { s with
      backlog := rest
      registered := s.registered ++ [c]
      clients_list := s.clients_list ++ [some c]
      arrived := s.arrived ++ [d]
      accepted := s.accepted ++ [c]
      appended := s.appended ++ [some c] } := by
  have hroom : ¬ listenBacklog < s.backlog.length := by
    rw [blocked_backlog (reachable_inv hrun) hb]
    exact Nat.not_lt.2 (missed_le hrun)
  obtain ⟨c, rest, hcons⟩ :=
    List.exists_cons_of_ne_nil (List.append_ne_nil_of_right_ne_nil s.backlog (List.cons_ne_nil d []))
  have harrive : step n s (.arrive d) = some { s with
      backlog := s.backlog ++ [d], arrived := s.arrived ++ [d], ready := [.listener] } := by
    have hguard : ¬ (s.pc = .stopped ∨ d ∈ s.arrived ∨ listenBacklog < s.backlog.length) := by simp [hb.1, hd, hroom]
    rw [step, if_neg hguard, hb.1, hb.2]
    rfl
  refine ⟨c, rest, hcons, ?_⟩
  rw [exec, harrive, Option.bind_some]
  have hround := @exec_round n hn { s with backlog := s.backlog ++ [d], arrived := s.arrived ++ [d], ready := [.listener] }
    hb.1 rfl c rest hcons
  rw [hround, hb.2]

theorem arrival_serves_oldest_stuck : ∃ c rest, [1] ++ [2] = c :: rest ∧
    exec (step 5000) stuck (.arrive 2 :: round) = some { stuck with
      backlog := rest
      registered := [0] ++ [c]
      clients_list := [some 0] ++ [some c]
      arrived := [0, 1] ++ [2]
      accepted := [0] ++ [c]
      appended := [some 0] ++ [some c] } := by
  have hstuck : exec (step 5000) {} twoArrivals = some stuck := by decide
  exact arrival_serves_oldest (by decide) hstuck ⟨rfl, rfl⟩ (by decide)

end ProGuide.Server
