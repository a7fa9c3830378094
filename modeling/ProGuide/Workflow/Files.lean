import Std.Data.String.ToNat
import ProGuide.Lib.Text
/-!
# File names

The files the workflow library keeps: those of the datastores and their
serializers' names in the data directory, temporary ones and lock files beside
the file they are for.
-/
open ProGuide.Lib.Text

namespace ProGuide.Workflow

abbrev Str := List Char

/-! ## Extensions -/

def withExt (name ext : Str) : Str := name ++ '.' :: ext

theorem withExt_inj {n n' e e' : Str} (he : '.' ∉ e) (he' : '.' ∉ e') (h : withExt n e = withExt n' e') :
    n = n' ∧ e = e' := by
  have hr : e.reverse ++ '.' :: n.reverse = e'.reverse ++ '.' :: n'.reverse := by
    simpa [withExt] using congrArg List.reverse h
  have hp : e.reverse ++ '.' :: n.reverse <+: e'.reverse ++ '.' :: n'.reverse := by rw [hr]
  have heq : e.reverse = e'.reverse := eq_of_prefix_delim (by simpa using he) (by simpa using he') hp
  rw [heq] at hr
  have hn : '.' :: n.reverse = '.' :: n'.reverse := List.append_cancel_left hr
  exact ⟨List.reverse_injective (List.cons.inj hn).2, List.reverse_injective heq⟩

/-! ## Directories -/

/-- `os.path.join` of two parts. -/
def join (dir file : Str) : Str :=
  if file.head? = some '/' then file
  else if dir = [] ∨ dir.getLast? = some '/' then dir ++ file
  else dir ++ '/' :: file

/-- A name without `/`: it names a file of the directory it is joined to. -/
def IsName (file : Str) : Prop := '/' ∉ file

theorem join_inj {dir f g : Str} (hf : IsName f) (hg : IsName g) (h : join dir f = join dir g) : f = g := by
  have rel : ∀ f, IsName f → f.head? ≠ some '/' := fun f hf hs => hf (List.mem_of_mem_head? hs)
  unfold join at h
  rw [if_neg (rel f hf), if_neg (rel g hg)] at h
  split at h
  · exact List.append_cancel_left h
  · exact (List.cons.inj (List.append_cancel_left h)).2

/-- `os.path.basename`. -/
def basename (path : Str) : Str := (path.reverse.takeWhile (· ≠ '/')).reverse

theorem basename_join {dir file : Str} (h : IsName file) : basename (join dir file) = file := by
  have hself (rest : Str) (hrest : rest = [] ∨ rest.getLast? = some '/') : basename (rest ++ file) = file := by
    have hall : ∀ c ∈ file.reverse, decide (c ≠ '/') = true := fun c hc =>
      decide_eq_true fun heq => h (heq ▸ List.mem_reverse.1 hc)
    unfold basename
    rw [List.reverse_append, List.takeWhile_append_of_pos hall]
    rcases hrest with rfl | hlast
    · simp
    · obtain ⟨pre, rfl⟩ := List.getLast?_eq_some_iff.1 hlast
      simp
  unfold join
  split
  · exact hself [] (Or.inl rfl)
  · split
    · next hdir => exact hself dir hdir
    · have := hself (dir ++ ['/']) (Or.inr (by simp))
      rwa [List.append_assoc] at this

/-! ## The files of a datastore -/

/-- `datafile('.{0}.alfred-workflow'.format(name))`. -/
def metadataPath (datadir name : Str) : Str := join datadir (withExt ('.' :: name) "alfred-workflow".toList)

/-- `datafile('{0}.{1}'.format(name, serializer_name))`. -/
def dataPath (datadir name serializer_name : Str) : Str := join datadir (withExt name serializer_name)

def settingsPath (datadir : Str) : Str := join datadir (withExt "settings".toList "json".toList)

/-! ## Files beside a file -/

/-- `protected_path + '.lock'`. -/
def lockfile (protected_path : Str) : Str := withExt protected_path "lock".toList

/-- `str(os.getpid())`. -/
def pidText (pid : Nat) : Str := Nat.toDigits 10 pid

/-- `fpath + '.{}.tmp'.format(os.getpid())`. -/
def tempPath (fpath : Str) (pid : Nat) : Str := withExt (withExt fpath (pidText pid)) "tmp".toList

theorem dot_not_pidText (pid : Nat) : '.' ∉ pidText pid := fun h =>
  absurd (Nat.isDigit_of_mem_toDigits (by decide) (by decide) h) (by decide)

/-- Two processes write to different temporary files. -/
theorem tempPath_inj {fpath : Str} {p q : Nat} (h : tempPath fpath p = tempPath fpath q) : p = q := by
  obtain ⟨h, -⟩ := withExt_inj (by decide) (by decide) h
  obtain ⟨-, h⟩ := withExt_inj (dot_not_pidText p) (dot_not_pidText q) h
  rw [← Nat.ofDigitChars_ten_toDigits (n := p), ← Nat.ofDigitChars_ten_toDigits (n := q)]
  exact congrArg _ h

theorem tempPath_ne (fpath : Str) (p : Nat) : tempPath fpath p ≠ fpath := by
  intro h
  have := congrArg List.length h
  simp [tempPath, withExt] at this

end ProGuide.Workflow
