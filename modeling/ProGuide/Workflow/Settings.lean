import ProGuide.Lib.Runs
import ProGuide.Workflow.Files
/-!
# Settings

`Settings` of `workflow.py` is a dictionary that writes itself to a file when it is
changed. An assignment is compared with the value the key had when the file was
read, and that is not brought up to date by later ones: it is lost when it brings
that value back. A value is an `Option`, `none` being Python's `None`.
-/
open ProGuide.Lib.Runs

namespace ProGuide.Workflow

/-! ## Dictionaries -/

abbrev Dict (V : Type) := Str → Option (Option V)

variable {V : Type}

def Dict.empty : Dict V := fun _ => none

/-- `dict.get`: a missing key is `None`. -/
def Dict.get (d : Dict V) (key : Str) : Option V := (d key).join

def Dict.setItem (d : Dict V) (key : Str) (value : Option V) : Dict V := Function.update d key (some value)

/-- `dict.update` with these items. -/
def Dict.updateAll (d : Dict V) (items : List (Str × Option V)) : Dict V := items.foldl (fun d kv => d.setItem kv.1 kv.2) d

def Dict.setdefault (d : Dict V) (key : Str) (value : Option V) : Dict V :=
  if d key = none then d.setItem key value else d

theorem Dict.eq_setItem_iff {d : Dict V} {key : Str} {value : Option V} : d = d.setItem key value ↔ d key = some value := by
  constructor
  · intro h
    rw [h]
    exact Function.update_self ..
  · intro h
    rw [Dict.setItem, ← h, Function.update_eq_self]

/-! ## The class -/

/-- The dictionary, `_original`, and the data in the settings file if it is there. -/
structure Settings (V : Type) where
  dict : Dict V
  original : Dict V
  file : Option (Dict V)

namespace Settings

def save (s : Settings V) : Settings V := { s with file := some s.dict }

/-- What the next process will read. -/
def held (s : Settings V) : Dict V := s.file.getD .empty

@[simp] theorem held_save (s : Settings V) : s.save.held = s.dict := rfl

variable [DecidableEq V]

def setItem (s : Settings V) (key : Str) (value : Option V) : Settings V :=
  if s.original.get key ≠ value then save { s with dict := s.dict.setItem key value } else s

/-- `__init__`: the file is read, or written with the defaults if there are any. -/
def init (defaults : List (Str × Option V)) (file : Option (Dict V)) : Settings V :=
  match file with
  | some data => ⟨data, data, some data⟩
  | none =>
    if defaults.isEmpty then ⟨.empty, .empty, none⟩
    else save (defaults.foldl (fun s kv => s.setItem kv.1 kv.2) ⟨.empty, .empty, none⟩)

end Settings

/-- A change of the settings, or a new process that opens them. -/
inductive Change (V : Type) where
  | setItem (key : Str) (value : Option V)
  | delItem (key : Str)
  | update (items : List (Str × Option V))
  | setdefault (key : Str) (value : Option V)
  | reopen

/-- Deleting a key that is not there raises `KeyError`. -/
def Settings.apply [DecidableEq V] (defaults : List (Str × Option V)) (s : Settings V) : Change V → Settings V
  | .setItem key value => s.setItem key value
  | .delItem key => if s.dict key = none then s else save { s with dict := Function.update s.dict key none }
  | .update items => save { s with dict := s.dict.updateAll items }
  | .setdefault key value => save { s with dict := s.dict.setdefault key value }
  | .reopen => init defaults s.file

/-! ## The dictionary it stands for -/

/-- A dictionary that every change takes effect on, and what it was when last opened. -/
structure Plain (V : Type) where
  dict : Dict V
  opened : Dict V

def Plain.apply (p : Plain V) : Change V → Plain V
  | .setItem key value => { p with dict := p.dict.setItem key value }
  | .delItem key => { p with dict := Function.update p.dict key none }
  | .update items => { p with dict := p.dict.updateAll items }
  | .setdefault key value => { p with dict := p.dict.setdefault key value }
  | .reopen => { p with opened := p.dict }

def Settings.plain (s : Settings V) : Plain V := ⟨s.dict, s.original⟩

/-- The change does not bring a key back to what it was when the settings were
opened, unless it is that already. A key that was missing was `None`. -/
def Takes (p : Plain V) : Change V → Prop
  | .setItem key value => p.opened.get key = value → p.dict key = some value
  | _ => True

/-- What is in memory is what the file holds. -/
structure Saved (defaults : List (Str × Option V)) (s : Settings V) (p : Plain V) : Prop where
  dict : s.dict = s.held
  original : s.original = p.opened
  file : s.file = none → defaults.isEmpty = true

theorem saved_save {defaults : List (Str × Option V)} {s : Settings V} {p : Plain V} (h : s.original = p.opened) :
    Saved defaults s.save p := ⟨rfl, h, fun h => by cases h⟩

variable [DecidableEq V]

/-- What one change does to the file. -/
theorem apply_held {defaults : List (Str × Option V)} {s : Settings V} {p : Plain V} (a : Change V)
    (hP : s.held = p.dict) (hI : Saved defaults s p) :
    ((s.apply defaults a).held = (p.apply a).dict ↔ Takes p a) ∧
      ((s.apply defaults a).held = (p.apply a).dict → Saved defaults (s.apply defaults a) (p.apply a)) := by
  have hdict : s.dict = p.dict := hI.dict.trans hP
  cases a with
  | setItem key value =>
    simp only [Settings.apply, Settings.setItem, Plain.apply, Takes]
    split
    · rename_i hne
      rw [hI.original] at hne
      exact ⟨by simp [hne, hdict], fun _ => saved_save hI.original⟩
    · rename_i heq
      rw [hI.original, ne_eq, not_not] at heq
      exact ⟨by rw [hP, Dict.eq_setItem_iff]; simp [heq], fun _ => ⟨hI.dict, hI.original, hI.file⟩⟩
  | delItem key =>
    simp only [Settings.apply, Plain.apply, Takes, iff_true]
    split
    · rename_i hnone
      have hsame : Function.update p.dict key none = p.dict := by rw [← hdict, ← hnone, Function.update_eq_self]
      exact ⟨by rw [hP, hsame], fun _ => ⟨hI.dict, hI.original, hI.file⟩⟩
    · exact ⟨by rw [Settings.held_save, hdict], fun _ => saved_save hI.original⟩
  | update items => exact ⟨by simp [Settings.apply, Plain.apply, Takes, hdict], fun _ => saved_save hI.original⟩
  | setdefault key value => exact ⟨by simp [Settings.apply, Plain.apply, Takes, hdict], fun _ => saved_save hI.original⟩
  | reopen =>
    simp only [Settings.apply, Settings.init, Plain.apply, Takes, iff_true]
    cases hf : s.file with
    | some data =>
      have hdata : data = p.dict := by rw [← hP, Settings.held, hf, Option.getD_some]
      exact ⟨hdata, fun _ => ⟨rfl, hdata, fun h => by cases h⟩⟩
    | none =>
      have hempty : Dict.empty = p.dict := by rw [← hP, Settings.held, hf, Option.getD_none]
      simp only [hI.file hf, if_true]
      exact ⟨hempty, fun _ => ⟨rfl, hempty, fun _ => hI.file hf⟩⟩

theorem saved_init (defaults : List (Str × Option V)) (file : Option (Dict V)) :
    (Settings.init defaults file).held = (Settings.init defaults file).dict ∧
      Saved defaults (Settings.init defaults file) (Settings.init defaults file).plain := by
  cases file with
  | some data => exact ⟨rfl, rfl, rfl, fun h => by cases h⟩
  | none =>
    simp only [Settings.init]
    split
    · rename_i hempty
      exact ⟨rfl, rfl, rfl, fun _ => hempty⟩
    · exact ⟨rfl, rfl, rfl, fun h => by cases h⟩

/-- Over any changes, by one process after another, the file holds after each of them
what the changes so far make of the settings exactly when no assignment brings a key
back to the value it had when the process opened the settings. -/
theorem settings_kept_iff (defaults : List (Str × Option V)) (file : Option (Dict V)) (as : List (Change V)) :
    (∀ pre post, as = pre ++ post →
      (pre.foldl (Settings.apply defaults) (.init defaults file)).held =
        (pre.foldl Plain.apply (Settings.init defaults file).plain).dict) ↔
      ∀ pre a post, as = pre ++ a :: post → Takes (pre.foldl Plain.apply (Settings.init defaults file).plain) a := by
  obtain ⟨hheld, hsaved⟩ := saved_init defaults file
  have hstep : ∀ (s : Settings V) (p : Plain V) (a : Change V), s.held = p.dict → Saved defaults s p →
      ((s.apply defaults a).held = (p.apply a).dict ↔ Takes p a) ∧
        ((s.apply defaults a).held = (p.apply a).dict → Saved defaults (s.apply defaults a) (p.apply a)) :=
    fun _ _ a hP hI => apply_held a hP hI
  exact agree_iff hstep hheld hsaved as

/-- Turning a setting off and on again in one process leaves it off. -/
example : ([Change.setItem ['k'] (some false), .setItem ['k'] (some true)].foldl (Settings.apply [])
    (.init [] (some (Dict.empty.setItem ['k'] (some true))))).held ['k'] = some (some false) := by decide

end ProGuide.Workflow
