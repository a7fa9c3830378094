import Mathlib.Logic.Function.Basic
/-!
# Directories

A directory leads names to inodes. An inode outlives its name: whoever has it
open keeps it, so a name that is given again leads to another inode. No inode
has two names.
-/

namespace ProGuide.Lib.Inodes

/-- The inode of each name, and how many inodes were ever made. -/
structure Dir (N : Type) where
  entry : N → Option Nat
  made : Nat
  entry_lt : ∀ n i, entry n = some i → i < made
  entry_inj : ∀ n m i, entry n = some i → entry m = some i → n = m

namespace Dir

variable {N : Type}

def empty : Dir N where
  entry _ := none
  made := 0
  entry_lt _ _ h := by cases h
  entry_inj _ _ _ h := by cases h

/-- The inode that opening the name gives: a new one if nothing has the name. -/
def inode (d : Dir N) (n : N) : Nat := (d.entry n).getD d.made

@[simp] theorem entry_empty (n : N) : (empty : Dir N).entry n = none := rfl

theorem inode_of_entry {d : Dir N} {n : N} {i : Nat} (h : d.entry n = some i) : d.inode n = i := by
  rw [inode, h]
  rfl

/-- The inode opened is the name's, or one that was never made before. -/
theorem inode_cases (d : Dir N) (n : N) : d.entry n = some (d.inode n) ∨ (d.entry n = none ∧ d.inode n = d.made) := by
  unfold inode
  cases d.entry n with
  | none => exact .inr ⟨rfl, rfl⟩
  | some i => exact .inl rfl

/-- Opening a name gives no inode that another name leads to. -/
theorem ne_inode {d : Dir N} {m n : N} {i : Nat} (h : d.entry m = some i) (hmn : m ≠ n) : i ≠ d.inode n := by
  rintro rfl
  rcases d.inode_cases n with hn | ⟨-, hn⟩
  · exact hmn (d.entry_inj m n _ h hn)
  · have := d.entry_lt m _ h
    omega

variable [DecidableEq N]

/-- What opening the name for writing does to the directory. -/
def create (d : Dir N) (n : N) : Dir N where
  entry := Function.update d.entry n (some (d.inode n))
  made := max d.made (d.inode n + 1)
  entry_lt m i h := by
    by_cases hm : m = n
    · subst hm
      rw [Function.update_self] at h
      obtain rfl := Option.some.inj h
      omega
    · rw [Function.update_of_ne hm] at h
      have := d.entry_lt m i h
      omega
  entry_inj m k i hm hk := by
    -- another name of the opened inode would be a name of it before
    have other : ∀ m, m ≠ n → d.entry m ≠ some (d.inode n) := by
      intro m hne hm
      cases hn : d.entry n with
      | none =>
        have := d.entry_lt m _ hm
        simp [inode, hn] at this
      | some j =>
        rw [inode, hn] at hm
        exact hne (d.entry_inj m n j hm hn)
    by_cases hmn : m = n <;> by_cases hkn : k = n
    · exact hmn.trans hkn.symm
    · subst hmn
      rw [Function.update_self] at hm
      rw [Function.update_of_ne hkn, ← hm] at hk
      exact absurd hk (other k hkn)
    · subst hkn
      rw [Function.update_self] at hk
      rw [Function.update_of_ne hmn, ← hk] at hm
      exact absurd hm (other m hmn)
    · rw [Function.update_of_ne hmn] at hm
      rw [Function.update_of_ne hkn] at hk
      exact d.entry_inj m k i hm hk

/-- The name is taken away, if it is there. -/
def unlink (d : Dir N) (n : N) : Dir N where
  entry := Function.update d.entry n none
  made := d.made
  entry_lt m i h := by
    by_cases hm : m = n
    · rw [hm, Function.update_self] at h
      cases h
    · exact d.entry_lt m i (by rwa [Function.update_of_ne hm] at h)
  entry_inj m k i hm hk := by
    by_cases hmn : m = n
    · rw [hmn, Function.update_self] at hm
      cases hm
    by_cases hkn : k = n
    · rw [hkn, Function.update_self] at hk
      cases hk
    rw [Function.update_of_ne hmn] at hm
    rw [Function.update_of_ne hkn] at hk
    exact d.entry_inj m k i hm hk

/-- The name `o` becomes the name `n`, whatever had that before. -/
def rename (d : Dir N) (o n : N) : Dir N where
  entry := Function.update (d.unlink o).entry n (d.entry o)
  made := d.made
  entry_lt m i h := by
    by_cases hm : m = n
    · rw [hm, Function.update_self] at h
      exact d.entry_lt o i h
    · rw [Function.update_of_ne hm] at h
      exact (d.unlink o).entry_lt m i h
  entry_inj m k i hm hk := by
    -- what keeps its name has another inode than `o` had
    have other : ∀ m, (d.unlink o).entry m = some i → d.entry o ≠ some i := by
      intro m hm ho
      by_cases hmo : m = o
      · simp [unlink, hmo] at hm
      · exact hmo (d.entry_inj m o i (by simpa [unlink, hmo] using hm) ho)
    by_cases hmn : m = n <;> by_cases hkn : k = n
    · exact hmn.trans hkn.symm
    · rw [hmn, Function.update_self] at hm
      rw [Function.update_of_ne hkn] at hk
      exact absurd hm (other k hk)
    · rw [hkn, Function.update_self] at hk
      rw [Function.update_of_ne hmn] at hm
      exact absurd hk (other m hm)
    · rw [Function.update_of_ne hmn] at hm
      rw [Function.update_of_ne hkn] at hk
      exact (d.unlink o).entry_inj m k i hm hk

/-! ## What the names lead to afterwards -/

theorem entry_create (d : Dir N) (n m : N) :
    (d.create n).entry m = if m = n then some (d.inode n) else d.entry m := by
  simp [create, Function.update_apply]

theorem entry_unlink (d : Dir N) (n m : N) : (d.unlink n).entry m = if m = n then none else d.entry m := by
  simp [unlink, Function.update_apply]

theorem entry_rename (d : Dir N) (o n m : N) :
    (d.rename o n).entry m = if m = n then d.entry o else if m = o then none else d.entry m := by
  simp [rename, unlink, Function.update_apply]

@[simp] theorem made_unlink (d : Dir N) (n : N) : (d.unlink n).made = d.made := rfl

@[simp] theorem made_rename (d : Dir N) (o n : N) : (d.rename o n).made = d.made := rfl

theorem made_le_create (d : Dir N) (n : N) : d.made ≤ (d.create n).made := Nat.le_max_left _ _

theorem inode_lt_create (d : Dir N) (n : N) : d.inode n < (d.create n).made := Nat.le_max_right _ _

end Dir

end ProGuide.Lib.Inodes
