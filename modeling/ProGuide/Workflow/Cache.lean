import ProGuide.Workflow.DataStore
/-!
# The cache

`cache_data` and `cached_data` keep values in files of the cache directory and go by the
files' times; a name may be one of a session, whose files other sessions clear. A machine
on the files, and the map from sessions and names to values and times it stands for.
-/
open ProGuide.Lib.Runs

namespace ProGuide.Workflow.Cache

/-! ## The code -/

/-- The parts of a `Workflow3` that its cache depends on. -/
structure WorkflowCache (V : Type) where
  cachedir : Str
  cache_serializer : Str
  serializer : Serializer V
  isName : IsName cache_serializer

/-- The files, each with the time it was written, and the time in microseconds. -/
structure State where
  files : Str → Option (Nat × Str)
  clock : Nat

/-- A name, or one with `session=True`. -/
inductive Key where
  | plain (name : Str)
  | session (session_id name : Str)
  deriving DecidableEq, Repr

/-- An exception of the serializer, or of `data_func`. -/
inductive Raised where
  | serializer
  | dataFunc
  deriving DecidableEq, Repr

/-- What `data_func` comes to. -/
inductive DataFunc (V : Type) where
  | returns (data : Option V)
  | raises

def sessionMark : Str := "_wfsess-".toList

/-- `_session_prefix`. -/
def sessionPrefix (session_id : Str) : Str := sessionMark ++ session_id ++ "-".toList

/-- `_mk_session_name`. -/
def Key.name : Key → Str
  | .plain name => name
  | .session session_id name => sessionPrefix session_id ++ name

def second : Nat := 1000000

/-- Data of any age will do when the age allowed, in seconds, is 0. -/
def isFresh (age max_age : Nat) : Bool := age < max_age * second || max_age = 0

section Code
variable {V : Type} (w : WorkflowCache V)

def cachefile (name : Str) : Str := join w.cachedir (withExt name w.cache_serializer)

def cachedDataAge (s : State) (name : Str) : Nat := ((s.files (cachefile w name)).map fun f => s.clock - f.1).getD 0

def cacheData (s : State) (name : Str) (data : Option V) : State × Except Raised Unit :=
  match data with
  | none => ({ s with files := Function.update s.files (cachefile w name) none }, .ok ())
  | some v =>
    match w.serializer.dump v with
    | none => (s, .error .serializer)
    | some text => ({ s with files := Function.update s.files (cachefile w name) (some (s.clock, text)) }, .ok ())

/-- `cached_data`, when there is nothing fresh. -/
def regenerate (s : State) (name : Str) : Option (DataFunc V) → State × Except Raised (Option V)
  | none => (s, .ok none)
  | some .raises => (s, .error .dataFunc)
  | some (.returns data) => ((cacheData w s name data).1, (cacheData w s name data).2.map fun _ => data)

def cachedData (s : State) (name : Str) (data_func : Option (DataFunc V)) (max_age : Nat) :
    State × Except Raised (Option V) :=
  match s.files (cachefile w name) with
  | none => regenerate w s name data_func
  | some f =>
    if isFresh (cachedDataAge w s name) max_age then
      (s, (w.serializer.load f.2).elim (.error .serializer) fun v => .ok (some v))
    else regenerate w s name data_func

/-- `clear_cache`: the files of the directory that pass the filter are deleted. -/
def clearCache (s : State) (filter_func : Str → Bool) : State :=
  { s with files := fun path =>
      if path = join w.cachedir (basename path) ∧ filter_func (basename path) = true then none else s.files path }

/-- `_is_session_file` in a session. -/
def isSessionFile (session_id : Str) (current : Bool) (filename : Str) : Bool :=
  sessionMark.isPrefixOf filename && (current || !(sessionPrefix session_id).isPrefixOf filename)

def clearSessionCache (s : State) (session_id : Str) (current : Bool) : State :=
  clearCache w s (isSessionFile session_id current)

/-! ## Runs -/

/-- Time passes, or a method is called. -/
inductive Call (V : Type) where
  | wait (time : Nat)
  | cacheData (key : Key) (data : Option V)
  | cachedData (key : Key) (data_func : Option (DataFunc V)) (max_age : Nat)
  | clearSessionCache (session_id : Str) (current : Bool)
  | clearCache

def step (s : State) : Call V → State × Except Raised (Option V)
  | .wait time => ({ s with clock := s.clock + time }, .ok none)
  | .cacheData key data => ((cacheData w s key.name data).1, (cacheData w s key.name data).2.map fun _ => none)
  | .cachedData key data_func max_age => cachedData w s key.name data_func max_age
  | .clearSessionCache session_id current => (clearSessionCache w s session_id current, .ok none)
  | .clearCache => (clearCache w s fun _ => true, .ok none)

end Code

/-! ## What the files stand for -/

/-- The values under each key, with the times they are from. -/
structure Timed (V : Type) where
  entry : Key → Option (Nat × V)
  clock : Nat

section Map
variable {V : Type} (w : WorkflowCache V)

/-- A value that cannot be dumped leaves what there was. -/
def Timed.put (m : Timed V) (key : Key) (data : Option V) : Timed V × Except Raised Unit :=
  if data.any fun v => (w.serializer.dump v).isNone then (m, .error .serializer)
  else ({ m with entry := Function.update m.entry key (data.map fun v => (m.clock, v)) }, .ok ())

/-- The value of `data_func` is put in. -/
def Timed.make (m : Timed V) (key : Key) : Option (DataFunc V) → Timed V × Except Raised (Option V)
  | none => (m, .ok none)
  | some .raises => (m, .error .dataFunc)
  | some (.returns data) => ((m.put w key data).1, (m.put w key data).2.map fun _ => data)

/-- A key that clearing the sessions leaves. -/
def Key.spared (session_id : Str) (current : Bool) : Key → Bool
  | .plain _ => true
  | .session id _ => !current && id = session_id

def timedStep (m : Timed V) : Call V → Timed V × Except Raised (Option V)
  | .wait time => ({ m with clock := m.clock + time }, .ok none)
  | .cacheData key data => ((m.put w key data).1, (m.put w key data).2.map fun _ => none)
  | .cachedData key data_func max_age =>
    match m.entry key with
    | none => m.make w key data_func
    | some (time, v) => if isFresh (m.clock - time) max_age then (m, .ok (some v)) else m.make w key data_func
  | .clearSessionCache session_id current =>
    ({ m with entry := fun key => if key.spared session_id current then m.entry key else none }, .ok none)
  | .clearCache => ({ m with entry := fun _ => none }, .ok none)

end Map

/-! ## Names -/

variable {V : Type}

/-- A key whose name is a file name, and no session's unless it is one. -/
def Key.Ok : Key → Prop
  | .plain name => IsName name ∧ ¬ sessionMark <+: name
  | .session session_id name => IsName session_id ∧ '-' ∉ session_id ∧ IsName name

theorem name_isName {k : Key} (h : k.Ok) : IsName k.name := by
  cases k with
  | plain name => exact h.1
  | session id name =>
    obtain ⟨hid, -, hname⟩ := h
    unfold IsName Key.name sessionPrefix at *
    simp only [List.mem_append, not_or]
    exact ⟨⟨⟨by decide, hid⟩, by decide⟩, hname⟩

theorem isName_file {w : WorkflowCache V} {k : Key} (h : k.Ok) : IsName (withExt k.name w.cache_serializer) := by
  have hname := name_isName h
  have hext := w.isName
  unfold IsName withExt at *
  simp only [List.mem_append, List.mem_cons, not_or]
  exact ⟨hname, by decide, hext⟩

theorem name_inj {k k' : Key} (h : k.Ok) (h' : k'.Ok) (heq : k.name = k'.name) : k = k' := by
  have hmark (id name : Str) : sessionMark <+: (Key.session id name).name := by
    simp only [Key.name, sessionPrefix, List.append_assoc]
    exact List.prefix_append _ _
  cases k with
  | plain name =>
    cases k' with
    | plain name' => exact congrArg Key.plain heq
    | session id' name' => exact absurd (show sessionMark <+: (Key.plain name).name from heq ▸ hmark id' name') h.2
  | session id name =>
    cases k' with
    | plain name' => exact absurd (show sessionMark <+: (Key.plain name').name from heq ▸ hmark id name) h'.2
    | session id' name' =>
      simp only [Key.name, sessionPrefix, List.append_assoc] at heq
      have hrest : id ++ '-' :: name = id' ++ '-' :: name' := List.append_cancel_left heq
      have hprefix : id ++ '-' :: name <+: id' ++ '-' :: name' := hrest ▸ List.prefix_rfl
      have hid : id = id' := Lib.Text.eq_of_prefix_delim h.2.1 h'.2.1 hprefix
      subst hid
      exact congrArg (Key.session id) (List.cons.inj (List.append_cancel_left hrest)).2

/-- A prefix without a dot is one of the name before an extension. -/
theorem prefix_withExt {p n e : Str} (hp : '.' ∉ p) : p <+: withExt n e ↔ p <+: n := by
  refine ⟨fun h => ?_, fun h => h.trans (List.prefix_append n _)⟩
  rcases Nat.lt_or_ge n.length p.length with hlt | hle
  · have hdot : n ++ ['.'] <+: withExt n e := ⟨e, List.append_assoc n ['.'] e⟩
    have hdot := List.prefix_of_prefix_length_le hdot h (by rw [List.length_append]; exact hlt)
    exact absurd (hdot.subset (List.mem_append_right n (List.mem_singleton_self '.'))) hp
  · exact List.prefix_of_prefix_length_le h (List.prefix_append n _) hle

theorem cachefile_inj {w : WorkflowCache V} {k k' : Key} (h : k.Ok) (h' : k'.Ok)
    (heq : cachefile w k.name = cachefile w k'.name) : k = k' :=
  name_inj h h' (List.append_cancel_right (join_inj (isName_file h) (isName_file h') heq))

/-- Which keys' files a session clears. -/
theorem isSessionFile_eq {k : Key} (h : k.Ok) {session_id : Str} (hdot : '.' ∉ session_id) (hdash : '-' ∉ session_id)
    (current : Bool) (ext : Str) :
    isSessionFile session_id current (withExt k.name ext) = !k.spared session_id current := by
  have hmark : '.' ∉ sessionMark := by decide
  have hprefix : '.' ∉ sessionPrefix session_id := by
    simp only [sessionPrefix, List.mem_append, not_or]
    exact ⟨⟨hmark, hdot⟩, by decide⟩
  have hstart {p : Str} (hp : '.' ∉ p) : p.isPrefixOf (withExt k.name ext) = decide (p <+: k.name) := by
    rw [Bool.eq_iff_iff, List.isPrefixOf_iff_prefix, decide_eq_true_iff, prefix_withExt hp]
  rw [isSessionFile, hstart hmark, hstart hprefix]
  cases k with
  | plain name => simp [Key.name, Key.spared, h.2]
  | session id name =>
    have hin : sessionMark <+: (Key.session id name).name := by
      simp only [Key.name, sessionPrefix, List.append_assoc]
      exact List.prefix_append _ _
    have hsame : sessionPrefix session_id <+: (Key.session id name).name ↔ id = session_id := by
      simp only [Key.name, sessionPrefix, List.append_assoc, List.prefix_append_right_inj]
      refine ⟨fun hp => (Lib.Text.eq_of_prefix_delim hdash h.2.1 hp).symm, ?_⟩
      rintro rfl
      exact (List.prefix_append_right_inj id).2 (List.prefix_append _ _)
    simp [hin, hsame, Key.spared]

/-! ## The files hold the map -/

/-- The file of a key holds its value, and is from the same time. -/
structure HoldsAt (w : WorkflowCache V) (file : Option (Nat × Str)) (entry : Option (Nat × V)) : Prop where
  cached : ∀ t v, entry = some (t, v) → ∃ text, file = some (t, text) ∧ w.serializer.load text = some v
  missing : entry = none → file = none

structure Holds (w : WorkflowCache V) (s : State) (m : Timed V) : Prop where
  clock : s.clock = m.clock
  at_key : ∀ k : Key, k.Ok → HoldsAt w (s.files (cachefile w k.name)) (m.entry k)

variable {w : WorkflowCache V} {s : State} {m : Timed V}

/-- The file of one key changes. -/
theorem Holds.change {k : Key} {file : Option (Nat × Str)} {entry : Option (Nat × V)} (h : Holds w s m) (hk : k.Ok)
    (hat : HoldsAt w file entry) : Holds w { s with files := Function.update s.files (cachefile w k.name) file }
      { m with entry := Function.update m.entry k entry } := by
  refine ⟨h.clock, fun k' hk' => ?_⟩
  by_cases hkk : k' = k
  · subst hkk
    simpa only [Function.update_self] using hat
  · simp only [Function.update_of_ne hkk, Function.update_of_ne fun heq => hkk (cachefile_inj hk' hk heq)]
    exact h.at_key k' hk'

/-- The files of some keys are deleted. -/
theorem Holds.clear {filter_func : Str → Bool} {spared : Key → Bool} (h : Holds w s m)
    (hfilter : ∀ k : Key, k.Ok → filter_func (withExt k.name w.cache_serializer) = !spared k) :
    Holds w (clearCache w s filter_func) { m with entry := fun k => if spared k then m.entry k else none } := by
  refine ⟨h.clock, fun k hk => ?_⟩
  have hfile : (clearCache w s filter_func).files (cachefile w k.name) =
      if spared k then s.files (cachefile w k.name) else none := by
    have hbase : basename (cachefile w k.name) = withExt k.name w.cache_serializer := basename_join (isName_file hk)
    simp only [clearCache, hbase, hfilter k hk]
    cases spared k <;> simp [cachefile]
  simp only [hfile]
  cases spared k with
  | true => exact h.at_key k hk
  | false => exact ⟨fun t v hv => (by cases hv), fun _ => rfl⟩

/-- `cache_data` does to the files what it does to the map. -/
theorem cacheData_holds {k : Key} (hk : k.Ok) (h : Holds w s m) (data : Option V) :
    Holds w (cacheData w s k.name data).1 (m.put w k data).1 ∧ (cacheData w s k.name data).2 = (m.put w k data).2 := by
  cases data with
  | none =>
    refine ⟨h.change hk ⟨fun t v hv => (by cases hv), fun _ => rfl⟩, rfl⟩
  | some v =>
    cases hdump : w.serializer.dump v with
    | none => simpa [cacheData, Timed.put, hdump] using h
    | some text =>
      have hat : HoldsAt w (some (s.clock, text)) (some (m.clock, v)) := by
        refine ⟨fun t v' hv => ?_, fun hnone => by cases hnone⟩
        obtain ⟨rfl, rfl⟩ := Prod.mk.inj (Option.some.inj hv)
        exact ⟨text, by rw [h.clock], w.serializer.load_dump _ _ hdump⟩
      simpa [cacheData, Timed.put, hdump] using h.change hk hat

theorem regenerate_holds {k : Key} (hk : k.Ok) (h : Holds w s m) (data_func : Option (DataFunc V)) :
    Holds w (regenerate w s k.name data_func).1 (m.make w k data_func).1 ∧
      (regenerate w s k.name data_func).2 = (m.make w k data_func).2 := by
  match data_func with
  | none => exact ⟨h, rfl⟩
  | some .raises => exact ⟨h, rfl⟩
  | some (.returns data) =>
    obtain ⟨hput, hanswer⟩ := cacheData_holds hk h data
    exact ⟨hput, by simp only [regenerate, Timed.make, hanswer]⟩

/-- `cached_data` answers as the map does. -/
theorem cachedData_holds {k : Key} (hk : k.Ok) (h : Holds w s m) (data_func : Option (DataFunc V)) (max_age : Nat) :
    Holds w (cachedData w s k.name data_func max_age).1 (timedStep w m (.cachedData k data_func max_age)).1 ∧
      (cachedData w s k.name data_func max_age).2 = (timedStep w m (.cachedData k data_func max_age)).2 := by
  have hat := h.at_key k hk
  cases hentry : m.entry k with
  | none =>
    have hfile := hat.missing hentry
    simp only [cachedData, timedStep, hfile, hentry]
    exact regenerate_holds hk h data_func
  | some e =>
    obtain ⟨t, v⟩ := e
    obtain ⟨text, hfile, hload⟩ := hat.cached t v hentry
    have hage : cachedDataAge w s k.name = m.clock - t := by
      rw [cachedDataAge, hfile, h.clock]
      rfl
    simp only [cachedData, timedStep, hfile, hentry, hage, hload]
    split
    · exact ⟨h, rfl⟩
    · exact regenerate_holds hk h data_func

/-! ## Runs -/

/-- The keys are names, and so is the session that clears others' files. -/
def Call.Ok : Call V → Prop
  | .wait _ | .clearCache => True
  | .cacheData key _ | .cachedData key _ _ => key.Ok
  | .clearSessionCache session_id _ => '.' ∉ session_id ∧ '-' ∉ session_id

theorem step_holds {a : Call V} (ha : a.Ok) (h : Holds w s m) :
    Holds w (step w s a).1 (timedStep w m a).1 ∧ (step w s a).2 = (timedStep w m a).2 := by
  cases a with
  | wait time => exact ⟨⟨congrArg (· + time) h.clock, h.at_key⟩, rfl⟩
  | cacheData key data =>
    obtain ⟨hput, hanswer⟩ := cacheData_holds ha h data
    exact ⟨hput, by simp only [step, timedStep, hanswer]⟩
  | cachedData key data_func max_age => exact cachedData_holds ha h data_func max_age
  | clearSessionCache session_id current =>
    exact ⟨h.clear fun k hk => isSessionFile_eq hk ha.1 ha.2 current w.cache_serializer, rfl⟩
  | clearCache => exact ⟨@Holds.clear V w s m (fun _ => true) (fun _ => false) h fun _ _ => rfl, rfl⟩

/-- From no files, with names and session ids that can be told apart in a file's name, the
files answer as the map does: `cached_data` gives the last value cached under the name, in
the session if it is one's, if that is younger than `max_age` or any age will do, and else
makes it anew. -/
theorem cached_by_session {files : Str → Option (Nat × Str)} (hempty : ∀ k : Key, k.Ok → files (cachefile w k.name) = none)
    (clock : Nat) {as : List (Call V)} (hok : ∀ a ∈ as, a.Ok) :
    outputs (step w) ⟨files, clock⟩ as = outputs (timedStep w) ⟨fun _ => none, clock⟩ as := by
  have hstart : Holds w ⟨files, clock⟩ ⟨fun _ => none, clock⟩ :=
    ⟨rfl, fun k hk => ⟨fun t v hv => (by cases hv), fun _ => hempty k hk⟩⟩
  have hstep (s : State) (m : Timed V) (a : Call V) (ha : a.Ok) (h : Holds w s m) := step_holds ha h
  exact (outputs_eq hstep hstart hok).1

def numberCache : WorkflowCache Nat := ⟨"/cache".toList, "json".toList, jsonNumbers, by unfold IsName; decide⟩

/-- Two sessions with a value each, one of which clears the other's. -/
def twoSessions : List (Call Nat) :=
  [.cacheData (.session "a1".toList "n".toList) (some 1), .cacheData (.session "b2".toList "n".toList) (some 2),
    .cachedData (.session "a1".toList "n".toList) none 0, .clearSessionCache "b2".toList false,
    .cachedData (.session "a1".toList "n".toList) (some (.returns (some 3))) 60, .wait (61 * second),
    .cachedData (.session "b2".toList "n".toList) none 60]

theorem cached_by_session_two : outputs (step numberCache) ⟨fun _ => none, 0⟩ twoSessions =
    [.ok none, .ok none, .ok (some 1), .ok none, .ok (some 3), .ok none, .ok none] := by
  have hok : ∀ a ∈ twoSessions, a.Ok := by
    intro a ha
    simp only [twoSessions, List.mem_cons, List.not_mem_nil, or_false] at ha
    rcases ha with rfl | rfl | rfl | rfl | rfl | rfl | rfl <;> simp [Call.Ok, Key.Ok, IsName]
  exact (cached_by_session (fun _ _ => rfl) 0 hok).trans (by decide +kernel)

end ProGuide.Workflow.Cache
