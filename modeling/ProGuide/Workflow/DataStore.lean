import Mathlib.Data.List.DropRight
import ProGuide.Lib.Runs
import ProGuide.Workflow.Files
/-!
# Datastores

`store_data` and `stored_data` of `workflow.py` keep a datastore in two files: its
data, in a file whose extension is the serializer's name, and that name in a file
of its own. A machine on the files of the data directory, and the map from names to
values that it stands for.
-/
open ProGuide.Lib.Runs

namespace ProGuide.Workflow

/-! ## Serializers -/

/-- The bytes `str.strip` takes off. -/
def isSpace (c : Char) : Bool := c = ' ' || ('\t' ≤ c && c ≤ '\r')

def strip (s : Str) : Str := (s.dropWhile isSpace).rdropWhile isSpace

/-- A serializer; `dump` has no result when it raises. -/
structure Serializer (V : Type) where
  dump : V → Option Str
  load : Str → Option V
  load_dump : ∀ v t, dump v = some t → load t = some v

/-- A name that serves as a file extension. -/
structure IsExt (n : Str) : Prop where
  no_dot : '.' ∉ n
  no_slash : '/' ∉ n
  not_metadata : n ≠ "alfred-workflow".toList
  stripped : strip n = n
  nonempty : n ≠ []

/-- The registered serializers. -/
structure SerializerManager (V : Type) where
  serializer : Str → Option (Serializer V)
  isExt : ∀ n s, serializer n = some s → IsExt n

/-! ## The code -/

/-- The text of each file that is there. -/
abbrev Files := Str → Option Str

/-- An exception of the library, or of a serializer. -/
inductive Raised where
  | valueError (text : Str)
  | serializer
  deriving DecidableEq, Repr

/-- The parts of a `Workflow` that its datastores depend on. -/
structure WorkflowData (V : Type) where
  manager : SerializerManager V
  datadir : Str
  data_serializer : Str

section Code
variable {V : Type} (w : WorkflowData V)

def unknownSerializer (serializer_name : Str) : Raised :=
  .valueError ("Unknown serializer `".toList ++ serializer_name ++
    "`. Register a corresponding serializer with `manager.register()` to load this data.".toList)

def invalidSerializer (serializer_name : Str) : Raised :=
  .valueError ("Invalid serializer `".toList ++ serializer_name ++
    "`. Register your serializer with `manager.register()` first.".toList)

def overwritesSettings (name serializer_name : Str) : Raised :=
  .valueError ("Cannot save data to`".toList ++ name ++ "` with format `".toList ++ serializer_name ++
    "`. This would overwrite Alfred-Workflow's settings file.".toList)

def storedData (fs : Files) (name : Str) : Files × Except Raised (Option V) :=
  match fs (metadataPath w.datadir name) with
  | none => (fs, .ok none)
  | some text =>
    let serializer_name := strip text
    match w.manager.serializer serializer_name with
    | none => (fs, .error (unknownSerializer serializer_name))
    | some s =>
      match fs (dataPath w.datadir name serializer_name) with
      | none => (Function.update fs (metadataPath w.datadir name) none, .ok none)
      | some data =>
        match s.load data with
        | none => (fs, .error .serializer)
        | some v => (fs, .ok (some v))

/-- `serializer or self.data_serializer`. -/
def serializerName (serializer : Str) : Str := if serializer = [] then w.data_serializer else serializer

/-- The errors raised before any file is touched. -/
def refusal (name serializer_name : Str) : Option Raised :=
  if dataPath w.datadir name serializer_name = settingsPath w.datadir then
    some (overwritesSettings name serializer_name)
  else if (w.manager.serializer serializer_name).isNone then some (invalidSerializer serializer_name)
  else none

/-- `store_data`; no data deletes the datastore. The serializer's name is written
before the data is dumped. -/
def storeData (fs : Files) (name : Str) (data : Option V) (serializer : Str) : Files × Except Raised (Option V) :=
  let serializer_name := serializerName w serializer
  match refusal w name serializer_name with
  | some e => (fs, .error e)
  | none =>
    match data with
    | none =>
      (Function.update (Function.update fs (metadataPath w.datadir name) none)
        (dataPath w.datadir name serializer_name) none, .ok none)
    | some v =>
      let fs := Function.update fs (metadataPath w.datadir name) (some serializer_name)
      match (w.manager.serializer serializer_name).bind (·.dump v) with
      | none => (fs, .error .serializer)
      | some text => (Function.update fs (dataPath w.datadir name serializer_name) (some text), .ok none)

/-! ## Runs -/

/-- A call of the datastores' two methods. -/
inductive Call (V : Type) where
  | stored (name : Str)
  | store (name : Str) (data : Option V) (serializer : Str)

def Call.name : Call V → Str
  | .stored name | .store name _ _ => name

def step (fs : Files) : Call V → Files × Except Raised (Option V)
  | .stored name => storedData w fs name
  | .store name data serializer => storeData w fs name data serializer

/-- The map the files stand for: the last value stored under each name. -/
abbrev Store (V : Type) := Str → Option V

/-- `dump` raises: the serializer's name is written, the data is not. -/
def Fails : Call V → Prop
  | .stored _ => False
  | .store _ none _ => False
  | .store _ (some v) serializer =>
    ∃ s, w.manager.serializer (serializerName w serializer) = some s ∧ s.dump v = none

/-- What a call does to the map, and its answer. -/
def storeStep (σ : Store V) : Call V → Store V × Except Raised (Option V)
  | .stored name => (σ, .ok (σ name))
  | .store name data serializer =>
    match refusal w name (serializerName w serializer) with
    | some e => (σ, .error e)
    | none =>
      match data with
      | none => (Function.update σ name none, .ok none)
      | some v =>
        match (w.manager.serializer (serializerName w serializer)).bind (·.dump v) with
        | none => (σ, .error .serializer)
        | some _ => (Function.update σ name (some v), .ok none)

end Code

/-! ## The files of different datastores differ -/

section Paths
variable {dir n n' s s' : Str}

theorem isName_metadata (h : IsName n) : IsName (withExt ('.' :: n) "alfred-workflow".toList) := by
  unfold IsName withExt at *
  simp only [List.mem_append, List.mem_cons, not_or]
  exact ⟨⟨by decide, h⟩, by decide, by decide⟩

theorem isName_data (h : IsName n) (hs : IsExt s) : IsName (withExt n s) := by
  unfold IsName withExt at *
  simp only [List.mem_append, List.mem_cons, not_or]
  exact ⟨h, by decide, hs.no_slash⟩

theorem metadata_inj (h : IsName n) (h' : IsName n') (heq : metadataPath dir n = metadataPath dir n') : n = n' := by
  have := join_inj (isName_metadata h) (isName_metadata h') heq
  exact (List.cons.inj (withExt_inj (by decide) (by decide) this).1).2

theorem data_inj (h : IsName n) (h' : IsName n') (hs : IsExt s) (hs' : IsExt s')
    (heq : dataPath dir n s = dataPath dir n' s') : n = n' :=
  (withExt_inj hs.no_dot hs'.no_dot (join_inj (isName_data h hs) (isName_data h' hs') heq)).1

theorem metadata_ne_data (h : IsName n) (h' : IsName n') (hs : IsExt s) : metadataPath dir n ≠ dataPath dir n' s := by
  intro heq
  have := join_inj (isName_metadata h) (isName_data h' hs) heq
  exact hs.not_metadata (withExt_inj (by decide) hs.no_dot this).2.symm

theorem metadata_ne_settings (h : IsName n) : metadataPath dir n ≠ settingsPath dir := by
  intro heq
  have := join_inj (isName_metadata h) (by unfold IsName; decide) heq
  exact absurd (withExt_inj (by decide) (by decide) this).2 (by decide)

end Paths

/-! ## The files hold the map -/

section Holds
variable {V : Type} (w : WorkflowData V)

/-- The files of one datastore hold its value. `P` says which serializer is the only
one a datastore is used with. -/
structure HoldsAt (P : Str → Str → Prop) (fs : Files) (n : Str) (o : Option V) : Prop where
  stored : ∀ v, o = some v → ∃ s S t, fs (metadataPath w.datadir n) = some s ∧ w.manager.serializer s = some S ∧
    fs (dataPath w.datadir n s) = some t ∧ S.load t = some v
  missing : o = none → ∀ s, fs (metadataPath w.datadir n) = some s →
    w.manager.serializer s ≠ none ∧ fs (dataPath w.datadir n s) = none
  only : ∀ s S, P n s → w.manager.serializer s = some S → dataPath w.datadir n s ≠ settingsPath w.datadir →
    (∀ x, fs (metadataPath w.datadir n) = some x → x = s) ∧
    (fs (metadataPath w.datadir n) = none → fs (dataPath w.datadir n s) = none)

/-- The files hold the map, beside the settings. -/
structure Holds (P : Str → Str → Prop) (settings : Option Str) (fs : Files) (σ : Store V) : Prop where
  at_name : ∀ n, IsName n → HoldsAt w P fs n (σ n)
  settings : fs (settingsPath w.datadir) = settings

variable {w} {P : Str → Str → Prop} {settings : Option Str} {fs fs' : Files} {σ : Store V}

theorem HoldsAt.congr {n : Str} {o : Option V} (h : HoldsAt w P fs n o)
    (hmeta : fs' (metadataPath w.datadir n) = fs (metadataPath w.datadir n))
    (hdata : ∀ s S, w.manager.serializer s = some S → fs' (dataPath w.datadir n s) = fs (dataPath w.datadir n s)) :
    HoldsAt w P fs' n o := by
  refine ⟨fun v hv => ?_, fun ho s hs => ?_, fun s S hP hS hne => ?_⟩
  · obtain ⟨s, S, t, hs, hS, ht, hload⟩ := h.stored v hv
    exact ⟨s, S, t, hmeta.trans hs, hS, (hdata s S hS).trans ht, hload⟩
  · obtain ⟨hreg, hnone⟩ := h.missing ho s (hmeta ▸ hs)
    obtain ⟨S, hS⟩ := Option.ne_none_iff_exists'.1 hreg
    exact ⟨hreg, (hdata s S hS).trans hnone⟩
  · obtain ⟨hsame, hnone⟩ := h.only s S hP hS hne
    exact ⟨fun x hx => hsame x (hmeta ▸ hx), fun hx => (hdata s S hS).trans (hnone (hmeta ▸ hx))⟩

/-- A call on one datastore leaves the others, and the settings. -/
theorem Holds.change {n : Str} {o : Option V} (hn : IsName n) (h : Holds w P settings fs σ) (hat : HoldsAt w P fs' n o)
    (hmeta : ∀ k, IsName k → k ≠ n → fs' (metadataPath w.datadir k) = fs (metadataPath w.datadir k))
    (hdata : ∀ k, IsName k → k ≠ n → ∀ s S, w.manager.serializer s = some S →
      fs' (dataPath w.datadir k s) = fs (dataPath w.datadir k s))
    (hset : fs' (settingsPath w.datadir) = fs (settingsPath w.datadir)) :
    Holds w P settings fs' (Function.update σ n o) := by
  refine ⟨fun k hk => ?_, hset.trans h.settings⟩
  by_cases hkn : k = n
  · subst hkn
    rwa [Function.update_self]
  · rw [Function.update_of_ne hkn]
    exact (h.at_name k hk).congr (hmeta k hk hkn) (hdata k hk hkn)

/-! ## Reading -/

/-- `stored_data` answers with the map's value. It can only take away the name of a
serializer that has no data. -/
theorem storedData_holds {n : Str} (hn : IsName n) (h : Holds w P settings fs σ) :
    Holds w P settings (storedData w fs n).1 σ ∧ (storedData w fs n).2 = .ok (σ n) := by
  have hat := h.at_name n hn
  unfold storedData
  cases hv : σ n with
  | some v =>
    obtain ⟨s, S, t, hs, hS, ht, hload⟩ := hat.stored v hv
    have hstrip : strip s = s := (w.manager.isExt s S hS).stripped
    simp only [hs, hstrip, hS, ht, hload]
    exact ⟨h, trivial⟩
  | none =>
    cases hs : fs (metadataPath w.datadir n) with
    | none => exact ⟨h, rfl⟩
    | some s =>
      obtain ⟨hreg, hnone⟩ := hat.missing hv s hs
      obtain ⟨S, hS⟩ := Option.ne_none_iff_exists'.1 hreg
      have hstrip : strip s = s := (w.manager.isExt s S hS).stripped
      simp only [hstrip, hS, hnone]
      refine ⟨?_, trivial⟩
      have hdata : ∀ k s S, IsName k → w.manager.serializer s = some S →
          Function.update fs (metadataPath w.datadir n) none (dataPath w.datadir k s) = fs (dataPath w.datadir k s) :=
        fun k s S hk hS => Function.update_of_ne (metadata_ne_data hn hk (w.manager.isExt s S hS)).symm ..
      have hnew : HoldsAt w P (Function.update fs (metadataPath w.datadir n) none) n none := by
        refine ⟨fun v hv => (by cases hv), fun _ s hs => ?_, fun s' S' hP hS' hne => ⟨fun x hx => ?_, fun _ => ?_⟩⟩
        · simp at hs
        · simp at hx
        · obtain rfl := (hat.only s' S' hP hS' hne).1 s hs
          rw [hdata n s S' hn hS']
          exact hnone
      have hσ : Function.update σ n none = σ := by rw [← hv, Function.update_eq_self]
      rw [← hσ]
      exact h.change hn hnew (fun k hk hkn => Function.update_of_ne (fun heq => hkn (metadata_inj hk hn heq)) ..)
        (fun k hk _ s S hS => hdata k s S hk hS) (Function.update_of_ne (metadata_ne_settings hn).symm ..)

/-! ## Storing -/

theorem refusal_none {n s : Str} (h : refusal w n s = none) :
    dataPath w.datadir n s ≠ settingsPath w.datadir ∧ ∃ S, w.manager.serializer s = some S := by
  unfold refusal at h
  split at h
  · cases h
  · rename_i hne
    split at h
    · cases h
    · rename_i hreg
      exact ⟨hne, Option.isSome_iff_exists.1 (by simpa [Option.isSome_iff_ne_none] using hreg)⟩

/-- The only serializers of a call's datastore, and whether its `dump` may raise. -/
def Steady (w : WorkflowData V) (P : Str → Str → Prop) : Call V → Prop
  | .stored _ => True
  | .store n data ser =>
    (∀ s, P n s → serializerName w ser = s) ∧ (Fails w (.store n data ser) → P n (serializerName w ser))

/-- Files of other datastores, when those of one were written. -/
theorem data_other {n k s s' : Str} {x : Option Str} (hn : IsName n) (hk : IsName k) (hkn : k ≠ n) (hs : IsExt s)
    (hs' : IsExt s') : Function.update fs (dataPath w.datadir n s) x (dataPath w.datadir k s') =
      fs (dataPath w.datadir k s') :=
  Function.update_of_ne (fun heq => hkn (data_inj hk hn hs' hs heq)) ..

theorem metadata_other {n k : Str} {x : Option Str} (hn : IsName n) (hk : IsName k) (hkn : k ≠ n) :
    Function.update fs (metadataPath w.datadir n) x (metadataPath w.datadir k) = fs (metadataPath w.datadir k) :=
  Function.update_of_ne (fun heq => hkn (metadata_inj hk hn heq)) ..

theorem metadata_data {n k s : Str} {x : Option Str} (hn : IsName n) (hk : IsName k) (hs : IsExt s) :
    Function.update fs (dataPath w.datadir n s) x (metadataPath w.datadir k) = fs (metadataPath w.datadir k) :=
  Function.update_of_ne (metadata_ne_data hk hn hs) ..

theorem data_metadata {n k s : Str} {x : Option Str} (hn : IsName n) (hk : IsName k) (hs : IsExt s) :
    Function.update fs (metadataPath w.datadir n) x (dataPath w.datadir k s) = fs (dataPath w.datadir k s) :=
  Function.update_of_ne (metadata_ne_data hn hk hs).symm ..

/-- Both files of a datastore are written: the others keep theirs. -/
theorem Holds.write {n s : Str} {x y : Option Str} {o : Option V} (hn : IsName n) (hs : IsExt s)
    (hne : dataPath w.datadir n s ≠ settingsPath w.datadir) (h : Holds w P settings fs σ)
    (hat : HoldsAt w P (Function.update (Function.update fs (metadataPath w.datadir n) x) (dataPath w.datadir n s) y) n o) :
    Holds w P settings (Function.update (Function.update fs (metadataPath w.datadir n) x) (dataPath w.datadir n s) y)
      (Function.update σ n o) := by
  refine h.change hn hat (fun k hk hkn => ?_) (fun k hk hkn s' S' hS' => ?_) ?_
  · rw [metadata_data hn hk hs, metadata_other hn hk hkn]
  · have hs' := w.manager.isExt s' S' hS'
    rw [data_other hn hk hkn hs hs', data_metadata hn hk hs']
  · rw [Function.update_of_ne hne.symm, Function.update_of_ne (metadata_ne_settings hn).symm]

/-- `store_data` does to the files what it does to the map. -/
theorem storeData_holds {n : Str} {data : Option V} {ser : Str} (hn : IsName n) (h : Holds w P settings fs σ)
    (hst : Steady w P (.store n data ser)) :
    Holds w P settings (storeData w fs n data ser).1 (storeStep w σ (.store n data ser)).1 ∧
      (storeData w fs n data ser).2 = (storeStep w σ (.store n data ser)).2 := by
  obtain ⟨honly, hfails⟩ := hst
  unfold storeData
  simp only [storeStep]
  cases href : refusal w n (serializerName w ser) with
  | some e => exact ⟨h, rfl⟩
  | none =>
    obtain ⟨hne, S, hS⟩ := refusal_none href
    have hfail : ∀ v, data = some v → S.dump v = none → P n (serializerName w ser) := by
      rintro v rfl hd
      exact hfails ⟨S, hS, hd⟩
    clear hfails
    generalize serializerName w ser = s at *
    have hs := w.manager.isExt s S hS
    have hat := h.at_name n hn
    cases data with
    | none =>
      refine ⟨h.write hn hs hne ⟨fun v hv => (by cases hv), fun _ s' hs' => ?_,
        fun s' S' hP hS' _ => ⟨fun x hx => ?_, fun _ => ?_⟩⟩, rfl⟩
      · rw [metadata_data hn hn hs, Function.update_self] at hs'
        cases hs'
      · rw [metadata_data hn hn hs, Function.update_self] at hx
        cases hx
      · obtain rfl := honly s' hP
        exact Function.update_self ..
    | some v =>
      cases hd : S.dump v with
      | some t =>
        simp only [hS, Option.bind_some, hd]
        refine ⟨h.write hn hs hne ⟨fun v' hv => ?_, fun ho => (by cases ho),
          fun s' S' hP hS' _ => ⟨fun x hx => ?_, fun hx => ?_⟩⟩, trivial⟩
        · obtain rfl := Option.some.inj hv
          refine ⟨s, S, t, ?_, hS, Function.update_self .., S.load_dump v t hd⟩
          rw [metadata_data hn hn hs, Function.update_self]
        · rw [metadata_data hn hn hs, Function.update_self] at hx
          rw [← Option.some.inj hx]
          exact honly s' hP
        · rw [metadata_data hn hn hs, Function.update_self] at hx
          cases hx
      | none =>
        -- only the serializer's name is written: it is the one that was there, or there is no data
        simp only [hS, Option.bind_some, hd]
        refine ⟨?_, trivial⟩
        have hP := hfail v rfl hd
        obtain ⟨hsame, hnone⟩ := hat.only s S hP hS hne
        have hnew : HoldsAt w P (Function.update fs (metadataPath w.datadir n) (some s)) n (σ n) := by
          refine ⟨fun v' hv => ?_, fun ho s' hs' => ?_,
            fun s' S' hP' hS' _ => ⟨fun x hx => ?_, fun hx => ?_⟩⟩
          · obtain ⟨s', S', t, hs', hS', ht, hload⟩ := hat.stored v' hv
            obtain rfl := hsame s' hs'
            refine ⟨s', S', t, Function.update_self .., hS', ?_, hload⟩
            rwa [data_metadata hn hn hs]
          · rw [Function.update_self] at hs'
            obtain rfl := Option.some.inj hs'
            rw [data_metadata hn hn hs]
            refine ⟨by rw [hS]; simp, ?_⟩
            cases hm : fs (metadataPath w.datadir n) with
            | none => exact hnone hm
            | some x =>
              obtain rfl := hsame x hm
              exact (hat.missing ho x hm).2
          · rw [Function.update_self] at hx
            rw [← Option.some.inj hx]
            exact honly s' hP'
          · rw [Function.update_self] at hx
            cases hx
        have hσ : Function.update σ n (σ n) = σ := Function.update_eq_self ..
        rw [← hσ]
        exact h.change hn hnew (fun k hk hkn => metadata_other hn hk hkn)
          (fun k hk _ s' S' hS' => data_metadata hn hk (w.manager.isExt s' S' hS'))
          (Function.update_of_ne (metadata_ne_settings hn).symm ..)

theorem step_holds {a : Call V} (hst : IsName a.name ∧ Steady w P a) (h : Holds w P settings fs σ) :
    Holds w P settings (step w fs a).1 (storeStep w σ a).1 ∧ (step w fs a).2 = (storeStep w σ a).2 := by
  cases a with
  | stored n => exact storedData_holds hst.1 h
  | store n data ser => exact storeData_holds hst.1 h hst.2

/-- A data directory without datastores. The settings may be there. -/
def Fresh (w : WorkflowData V) (fs : Files) : Prop :=
  ∀ n, IsName n → fs (metadataPath w.datadir n) = none ∧ ∀ s S, w.manager.serializer s = some S →
    dataPath w.datadir n s ≠ settingsPath w.datadir → fs (dataPath w.datadir n s) = none

theorem holds_fresh (hf : Fresh w fs) : Holds w P (fs (settingsPath w.datadir)) fs fun _ => none := by
  refine ⟨fun n hn => ?_, rfl⟩
  obtain ⟨hmeta, hdata⟩ := hf n hn
  refine ⟨fun v hv => (by cases hv), fun _ s hs => ?_, fun s S _ hS hne => ⟨fun x hx => ?_, fun _ => hdata s S hS hne⟩⟩
  · rw [hmeta] at hs
    cases hs
  · rw [hmeta] at hx
    cases hx

end Holds

/-! ## Whole runs -/

section Runs
variable {V : Type} (w : WorkflowData V)

/-- The serializer a call stores with. -/
def Call.ext : Call V → Option Str
  | .stored _ => none
  | .store _ _ serializer => some (serializerName w serializer)

/-- A datastore that some value could not be dumped for is used with one serializer. -/
def OneSerializer (as : List (Call V)) : Prop :=
  ∀ a ∈ as, Fails w a → ∀ b ∈ as, b.name = a.name → ∀ s, b.ext w = some s → a.ext w = some s

/-- The serializer of a datastore that some value could not be dumped for. -/
def FailedWith (as : List (Call V)) (n s : Str) : Prop := ∃ a ∈ as, Fails w a ∧ a.name = n ∧ a.ext w = some s

variable {w}

theorem steady_of_oneSerializer {as : List (Call V)} (h : OneSerializer w as) {a : Call V} (ha : a ∈ as) :
    Steady w (FailedWith w as) a := by
  cases a with
  | stored n => trivial
  | store n data ser =>
    refine ⟨fun s hs => ?_, fun hf => ⟨_, ha, hf, rfl, rfl⟩⟩
    obtain ⟨b, hb, hf, hname, hext⟩ := hs
    have := h b hb hf _ ha hname.symm _ rfl
    exact Option.some.inj (this.symm.trans hext)

/-- Files that stand for a map answer calls of a run as the map does, and stand for what
it becomes. -/
theorem outputs_holds {as bs : List (Call V)} (hn : ∀ a ∈ as, IsName a.name) (hone : OneSerializer w as)
    (hbs : ∀ a ∈ bs, a ∈ as) {settings : Option Str} {fs : Files} {σ : Store V}
    (h : Holds w (FailedWith w as) settings fs σ) :
    outputs (step w) fs bs = outputs (storeStep w) σ bs ∧
      Holds w (FailedWith w as) settings (final (step w) fs bs) (final (storeStep w) σ bs) := by
  have hstep : ∀ fs σ (a : Call V), IsName a.name ∧ Steady w (FailedWith w as) a →
      Holds w (FailedWith w as) settings fs σ →
      Holds w (FailedWith w as) settings (step w fs a).1 (storeStep w σ a).1 ∧
        (step w fs a).2 = (storeStep w σ a).2 := fun _ _ _ hst h => step_holds hst h
  exact outputs_eq hstep h fun a ha => ⟨hn a (hbs a ha), steady_of_oneSerializer hone (hbs a ha)⟩

/-- From no datastore, under names that are file names and with one serializer a name, the
files answer as the map does: `stored_data` gives the last value stored, or none after a
deletion, and the settings file is left alone. -/
theorem stored_is_last {fs : Files} (hf : Fresh w fs) {as : List (Call V)} (hn : ∀ a ∈ as, IsName a.name)
    (hone : OneSerializer w as) :
    outputs (step w) fs as = outputs (storeStep w) (fun _ => none) as ∧
      final (step w) fs as (settingsPath w.datadir) = fs (settingsPath w.datadir) := by
  obtain ⟨houts, hfinal⟩ := outputs_holds hn hone (fun _ h => h) (holds_fresh hf)
  exact ⟨houts, hfinal.settings⟩

end Runs

/-! ## Numbers as JSON -/

/-- `json` on the natural numbers. -/
def jsonNumbers : Serializer Nat where
  dump n := some (Nat.toDigits 10 n)
  load t := if t ≠ [] ∧ (t.all fun c => c.isDigit) = true then some (Nat.ofDigitChars 10 t 0) else none
  load_dump n t h := by
    obtain rfl := Option.some.inj h
    have hd : ((Nat.toDigits 10 n).all fun c => c.isDigit) = true :=
      List.all_eq_true.2 fun c hc => Nat.isDigit_of_mem_toDigits (by decide) (by decide) hc
    rw [if_pos ⟨Nat.toDigits_ne_nil, hd⟩, Nat.ofDigitChars_ten_toDigits]

/-- A workflow that stores numbers as JSON. -/
def numbers : WorkflowData Nat where
  manager.serializer n := if n = "json".toList then some jsonNumbers else none
  manager.isExt n s h := by
    split at h
    · rename_i hn
      rw [hn]
      exact ⟨by decide, by decide, by decide, by decide, by decide⟩
    · cases h
  datadir := "/data".toList
  data_serializer := "json".toList

def counterCalls : List (Call Nat) :=
  [.store "count".toList (some 41) [], .store "count".toList (some 42) "json".toList,
    .stored "count".toList, .store "count".toList none [], .stored "count".toList]

theorem stored_is_last_numbers :
    outputs (step numbers) (fun _ => none) counterCalls = [.ok none, .ok none, .ok (some 42), .ok none, .ok none] ∧
      final (step numbers) (fun _ => none) counterCalls (settingsPath numbers.datadir) = none := by
  have hone : OneSerializer numbers counterCalls := by
    intro a ha hf
    simp only [counterCalls, List.mem_cons, List.not_mem_nil, or_false] at ha
    -- every number can be dumped
    rcases ha with rfl | rfl | rfl | rfl | rfl <;> simp [Fails, numbers, jsonNumbers] at hf
  have hn : ∀ a ∈ counterCalls, IsName a.name := by
    intro a ha
    simp only [counterCalls, List.mem_cons, List.not_mem_nil, or_false] at ha
    rcases ha with rfl | rfl | rfl | rfl | rfl <;> exact (by decide : '/' ∉ "count".toList)
  obtain ⟨houts, hset⟩ := @stored_is_last _ numbers (fun _ => none)
    (fun _ _ => ⟨rfl, fun _ _ _ _ => rfl⟩) _ hn hone
  exact ⟨houts.trans (by decide +kernel), hset⟩

end ProGuide.Workflow
