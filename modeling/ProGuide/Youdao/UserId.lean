import ProGuide.Workflow.DataStore
/-!
# The user id

`get_user_id` of `youdao.py` keeps an id in a datastore, which it writes again at every
call. The datastore is one of those of the workflow.
-/
open ProGuide.Lib.Runs
open ProGuide.Workflow (WorkflowData Files Raised Call Serializer IsName storedData storeData refusal serializerName strip
  metadataPath dataPath metadata_other data_metadata metadata_data data_other numbers)

namespace ProGuide.Youdao

/-! ## The code -/

def userIdName : List Char := "user_id".toList

section UserId
variable {V : Type} (w : WorkflowData V)

/-- `get_user_id`; `uuid` is what `uuid1` would give. -/
def getUserId (fs : Files) (uuid : V) : Files × Except Raised V :=
  match storedData w fs userIdName with
  | (fs, .error e) => (fs, .error e)
  | (fs, .ok user_id) =>
    match storeData w fs userIdName (some (user_id.getD uuid)) [] with
    | (fs, .error e) => (fs, .error e)
    | (fs, .ok _) => (fs, .ok (user_id.getD uuid))

/-- A call of `get_user_id`, or of another datastore. -/
inductive UserAction (V : Type) where
  | user (uuid : V)
  | other (call : Call V)

/-- The id, if it was asked for. -/
def userStep (fs : Files) : UserAction V → Files × Option (Except Raised V)
  | .user uuid => ((getUserId w fs uuid).1, some (getUserId w fs uuid).2)
  | .other call => ((Workflow.step w fs call).1, none)

/-- The other calls of a run. -/
def others (as : List (UserAction V)) : List (Call V) := as.filterMap fun
  | .user _ => none
  | .other call => some call

/-! ## The id in its files -/

variable {w}

/-- The id is in its two files, as the workflow's serializer writes it. -/
structure Kept (w : WorkflowData V) (id : V) (fs : Files) : Prop where
  allowed : refusal w userIdName (serializerName w []) = none
  metadata : fs (metadataPath w.datadir userIdName) = some (serializerName w [])
  data : ∃ S t, w.manager.serializer (serializerName w []) = some S ∧ S.dump id = some t ∧
    fs (dataPath w.datadir userIdName (serializerName w [])) = some t

variable {fs : Files} {id : V}

theorem isName_userId : IsName userIdName := by
  unfold IsName
  decide

/-- An id that `store_data` stores without an exception is in its files. -/
theorem kept_of_stored {x : Option V} (h : (storeData w fs userIdName (some id) []).2 = .ok x) :
    Kept w id (storeData w fs userIdName (some id) []).1 := by
  unfold storeData at h ⊢
  cases href : refusal w userIdName (serializerName w []) with
  | some e =>
    simp only [href] at h
    cases h
  | none =>
    obtain ⟨-, S, hS⟩ := Workflow.refusal_none href
    cases hd : S.dump id with
    | none =>
      simp only [href, hS, Option.bind_some, hd] at h
      cases h
    | some t =>
      simp only [href, hS, Option.bind_some, hd]
      refine ⟨href, ?_, S, t, hS, hd, Function.update_self ..⟩
      rw [metadata_data isName_userId isName_userId (w.manager.isExt _ S hS), Function.update_self]

/-- The first id that is given is in its files then. -/
theorem kept_of_given {uuid : V} (h : (getUserId w fs uuid).2 = .ok id) : Kept w id (getUserId w fs uuid).1 := by
  unfold getUserId at h ⊢
  generalize storedData w fs userIdName = r at *
  obtain ⟨fs', answer⟩ := r
  cases answer with
  | error e => cases h
  | ok user_id =>
    simp only at h ⊢
    cases hst : storeData w fs' userIdName (some (user_id.getD uuid)) [] with
    | mk fs'' stored =>
      simp only [hst] at h
      cases stored with
      | error e => cases h
      | ok x =>
        obtain rfl := Except.ok.inj h
        have hkept := @kept_of_stored V w fs' (user_id.getD uuid) x (by rw [hst])
        rw [hst] at hkept
        exact hkept

/-- `stored_data` reads a kept id, and leaves the files. -/
theorem Kept.storedData (h : Kept w id fs) : Workflow.storedData w fs userIdName = (fs, .ok (some id)) := by
  obtain ⟨S, t, hS, hd, ht⟩ := h.data
  have hstrip : strip (serializerName w []) = serializerName w [] := (w.manager.isExt _ S hS).stripped
  simp [Workflow.storedData, h.metadata, hstrip, hS, ht, S.load_dump id t hd]

/-- Storing a kept id again leaves the files. -/
theorem Kept.storeData (h : Kept w id fs) : Workflow.storeData w fs userIdName (some id) [] = (fs, .ok none) := by
  obtain ⟨S, t, hS, hd, ht⟩ := h.data
  have hfs : Function.update (Function.update fs (metadataPath w.datadir userIdName) (some (serializerName w [])))
      (dataPath w.datadir userIdName (serializerName w [])) (some t) = fs := by
    rw [← h.metadata, Function.update_eq_self, ← ht, Function.update_eq_self]
  simp [Workflow.storeData, h.allowed, hS, hd, hfs]

theorem Kept.getUserId (h : Kept w id fs) (uuid : V) : Youdao.getUserId w fs uuid = (fs, .ok id) := by
  simp [Youdao.getUserId, h.storedData, h.storeData]

/-- Files other than those of the id may change. -/
theorem Kept.congr {fs' : Files} (h : Kept w id fs)
    (hmeta : fs' (metadataPath w.datadir userIdName) = fs (metadataPath w.datadir userIdName))
    (hdata : ∀ s S, w.manager.serializer s = some S →
      fs' (dataPath w.datadir userIdName s) = fs (dataPath w.datadir userIdName s)) : Kept w id fs' := by
  obtain ⟨S, t, hS, hd, ht⟩ := h.data
  exact ⟨h.allowed, hmeta.trans h.metadata, S, t, hS, hd, (hdata _ S hS).trans ht⟩

/-- A call under another name leaves the id's files. -/
theorem Kept.other (h : Kept w id fs) {call : Call V} (hn : IsName call.name) (hne : call.name ≠ userIdName) :
    Kept w id (Workflow.step w fs call).1 := by
  have hmeta (gs : Files) (x : Option (List Char)) :
      Function.update gs (metadataPath w.datadir call.name) x (metadataPath w.datadir userIdName) =
        gs (metadataPath w.datadir userIdName) := metadata_other hn isName_userId hne.symm
  have hmetadata (gs : Files) (x : Option (List Char)) (s : List Char) (S : Serializer V)
      (hS : w.manager.serializer s = some S) :
      Function.update gs (metadataPath w.datadir call.name) x (dataPath w.datadir userIdName s) =
        gs (dataPath w.datadir userIdName s) := data_metadata hn isName_userId (w.manager.isExt s S hS)
  cases call with
  | stored n =>
    simp only [Workflow.step, Workflow.storedData]
    split
    · exact h
    · split
      · exact h
      · split
        · exact h.congr (hmeta fs none) (hmetadata fs none)
        · split
          · exact h
          · exact h
  | store n data ser =>
    simp only [Workflow.step, Workflow.storeData]
    cases href : refusal w n (serializerName w ser) with
    | some e => exact h
    | none =>
      obtain ⟨-, S, hS⟩ := Workflow.refusal_none href
      have hext := w.manager.isExt _ S hS
      replace hn : IsName n := hn
      replace hne : n ≠ userIdName := hne
      -- both files written belong to the other name
      have hboth (x y : Option (List Char)) : Kept w id (Function.update (Function.update fs (metadataPath w.datadir n) x)
          (dataPath w.datadir n (serializerName w ser)) y) := by
        refine h.congr ?_ fun s S' hS' => ?_
        · rw [metadata_data hn isName_userId hext]
          exact hmeta fs x
        · rw [data_other hn isName_userId hne.symm hext (w.manager.isExt s S' hS')]
          exact hmetadata fs x s S' hS'
      cases data with
      | none => exact hboth none none
      | some v =>
        simp only [hS, Option.bind_some]
        cases S.dump v with
        | none => exact h.congr (hmeta fs _) (hmetadata fs _)
        | some t => exact hboth _ (some t)

/-! ## Runs -/

/-- The answer of a call, once there is an id. -/
def UserAction.answer (id : V) : UserAction V → Option (Except Raised V)
  | .user _ => some (.ok id)
  | .other _ => none

/-- A call of another datastore is of one with another name, which is a file name. -/
def Elsewhere : UserAction V → Prop
  | .user _ => True
  | .other call => IsName call.name ∧ call.name ≠ userIdName

/-- The machine that gives the id at every call. -/
def constStep (id : V) (_ : Unit) (a : UserAction V) : Unit × Option (Except Raised V) := ((), a.answer id)

theorem outputs_constStep (id : V) (as : List (UserAction V)) :
    outputs (constStep id) () as = as.map (UserAction.answer id) := by
  induction as with
  | nil => rfl
  | cons a as ih => exact congrArg (List.cons _) ih

theorem userStep_kept {a : UserAction V} (ha : Elsewhere a) (h : Kept w id fs) :
    Kept w id (userStep w fs a).1 ∧ (userStep w fs a).2 = a.answer id := by
  cases a with
  | user uuid =>
    simp only [userStep, h.getUserId uuid]
    exact ⟨h, rfl⟩
  | other call => exact ⟨h.other ha.1 ha.2, rfl⟩

/-- The first id that was given is given by every later call, whatever datastores were
there before, and whatever is stored, deleted or fails to be stored under other names that
are file names. -/
theorem user_id_stays {uuid : V} (hid : (getUserId w fs uuid).2 = .ok id) {as : List (UserAction V)}
    (hn : ∀ call ∈ others as, IsName call.name ∧ call.name ≠ userIdName) :
    outputs (userStep w) (getUserId w fs uuid).1 as = as.map (UserAction.answer id) := by
  have helse : ∀ a ∈ as, Elsewhere a := by
    intro a ha
    cases a with
    | user uuid => trivial
    | other call => exact hn call (List.mem_filterMap.2 ⟨.other call, ha, rfl⟩)
  have hstep : ∀ fs' (u : Unit) (a : UserAction V), Elsewhere a → Kept w id fs' →
      Kept w id (userStep w fs' a).1 ∧ (userStep w fs' a).2 = (constStep id u a).2 :=
    fun _ _ _ ha h => userStep_kept ha h
  obtain ⟨houts, -⟩ := outputs_eq hstep (kept_of_given hid) helse
  rw [houts, outputs_constStep]

end UserId

/-- Two calls with another datastore's in between. -/
def someUserActions : List (UserAction Nat) :=
  [.user 7, .other (.store "count".toList (some 41) []), .other (.store "count".toList none []), .user 8]

theorem user_id_stays_numbers : outputs (userStep numbers) (getUserId numbers (fun _ => none) 5).1 someUserActions =
    [some (.ok 5), none, none, some (.ok 5)] := by
  have hn : ∀ call ∈ others someUserActions, IsName call.name ∧ call.name ≠ userIdName := by
    intro call hcall
    simp only [others, someUserActions, List.filterMap_cons, List.filterMap_nil, List.mem_cons, List.not_mem_nil,
      or_false] at hcall
    rcases hcall with rfl | rfl <;> exact ⟨(by decide : '/' ∉ "count".toList), (by decide : "count".toList ≠ userIdName)⟩
  have hid : (getUserId numbers (fun _ => none) 5).2 = .ok 5 := by decide +kernel
  exact user_id_stays hid hn

end ProGuide.Youdao
