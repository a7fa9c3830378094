import Mathlib.Data.List.Nodup
import Mathlib.Data.List.Perm.Basic
/-!
# Indexed arrays of a shell

An array whose elements are set one at a time under numbers, in any order, and
which keeps what is not overwritten. Set from one to the length of a list, it
holds that list over whatever it held beyond.
-/

namespace ProGuide.Lib.SparseArray

variable {α : Type}

/-- The elements that are set, with their indices. -/
abbrev Arr (α : Type) := List (Nat × α)

/-- `arr[i]=v`. -/
def set (arr : Arr α) (p : Nat × α) : Arr α := p :: arr.filter (·.1 ≠ p.1)

/-- Assignments one after the other. -/
def assign (arr : Arr α) (ps : List (Nat × α)) : Arr α := ps.foldl set arr

/-- A list numbered from one. -/
def enum (l : List α) : List (Nat × α) := (l.zipIdx 1).map Prod.swap

/-- A list laid over another, whose elements beyond it stay. -/
def overlay (l w : List α) : List α := w ++ l.drop w.length

theorem mem_set (arr : Arr α) (p q : Nat × α) : q ∈ set arr p ↔ q = p ∨ (q ∈ arr ∧ q.1 ≠ p.1) := by
  simp [set]

theorem set_nodup {arr : Arr α} (h : (arr.map Prod.fst).Nodup) (p : Nat × α) : ((set arr p).map Prod.fst).Nodup := by
  rw [set, List.map_cons, List.nodup_cons]
  constructor
  · simp
  · exact h.sublist ((List.filter_sublist).map Prod.fst)

theorem assign_nodup {arr : Arr α} (h : (arr.map Prod.fst).Nodup) (ps : List (Nat × α)) :
    ((assign arr ps).map Prod.fst).Nodup := by
  induction ps generalizing arr with
  | nil => exact h
  | cons p ps ih => exact ih (set_nodup h p)

/-- After assignments to different indices, an element is one of them or was
there under another index. -/
theorem mem_assign {arr : Arr α} {ps : List (Nat × α)} (hps : (ps.map Prod.fst).Nodup) (q : Nat × α) :
    q ∈ assign arr ps ↔ q ∈ ps ∨ (q ∈ arr ∧ q.1 ∉ ps.map Prod.fst) := by
  induction ps generalizing arr with
  | nil => simp [assign]
  | cons p ps ih =>
    rw [List.map_cons, List.nodup_cons] at hps
    have hkey : q ∈ ps → q.1 ≠ p.1 := fun hq he => hps.1 (he ▸ List.mem_map_of_mem hq)
    rw [assign, List.foldl_cons, ← assign, ih hps.2, mem_set, List.mem_cons, List.map_cons, List.mem_cons, not_or]
    constructor
    · rintro (hq | ⟨rfl | ⟨hq, hne⟩, hnot⟩)
      · exact Or.inl (Or.inr hq)
      · exact Or.inl (Or.inl rfl)
      · exact Or.inr ⟨hq, hne, hnot⟩
    · rintro ((rfl | hq) | ⟨hq, hne, hnot⟩)
      · exact Or.inr ⟨Or.inl rfl, hps.1⟩
      · exact Or.inl hq
      · exact Or.inr ⟨Or.inr ⟨hq, hne⟩, hnot⟩

theorem enum_fst (l : List α) : (enum l).map Prod.fst = List.range' 1 l.length := by
  rw [enum, List.map_map]
  exact List.zipIdx_map_snd 1 l

theorem mem_enum (l : List α) (i : Nat) (v : α) : (i, v) ∈ enum l ↔ 0 < i ∧ l[i - 1]? = some v := by
  have hmem : (i, v) ∈ enum l ↔ (v, i) ∈ l.zipIdx 1 := by
    rw [enum, List.mem_map]
    constructor
    · rintro ⟨⟨u, j⟩, hu, he⟩
      obtain ⟨rfl, rfl⟩ := Prod.mk.inj he
      exact hu
    · intro h
      exact ⟨(v, i), h, rfl⟩
  rw [hmem, List.mk_mem_zipIdx_iff_le_and_getElem?_sub]
  rfl

theorem keys_nodup_of_perm {arr : Arr α} {l : List α} (h : arr.Perm (enum l)) : (arr.map Prod.fst).Nodup := by
  rw [(h.map Prod.fst).nodup_iff, enum_fst]
  exact List.nodup_range'

theorem mem_keys_of_perm {arr : Arr α} {l : List α} (h : arr.Perm (enum l)) (i : Nat) :
    i ∈ arr.map Prod.fst ↔ 0 < i ∧ i - 1 < l.length := by
  rw [(h.map Prod.fst).mem_iff, enum_fst, List.mem_range'_1]
  omega

/-- Assigning a numbered list, in any order, to an array that holds a list laid
out from one gives the one laid over the other. -/
theorem assign_enum {arr ps : Arr α} {l w : List α} (ha : arr.Perm (enum l)) (hp : ps.Perm (enum w)) :
    (assign arr ps).Perm (enum (overlay l w)) := by
  have hleft : (assign arr ps).Nodup := List.Nodup.of_map Prod.fst (assign_nodup (keys_nodup_of_perm ha) ps)
  have hright : (enum (overlay l w)).Nodup := List.Nodup.of_map Prod.fst (keys_nodup_of_perm (List.Perm.refl _))
  rw [List.perm_ext_iff_of_nodup hleft hright]
  rintro ⟨i, v⟩
  rw [mem_assign (keys_nodup_of_perm hp), mem_keys_of_perm hp, hp.mem_iff, ha.mem_iff, mem_enum, mem_enum, mem_enum, overlay,
    List.getElem?_append]
  by_cases hi : i - 1 < w.length
  · simp [hi]
    omega
  · have hindex : w.length + (i - 1 - w.length) = i - 1 := by omega
    simp [hi, hindex]

theorem lookup_of_mem {arr : Arr α} (hn : (arr.map Prod.fst).Nodup) {i : Nat} {v : α} (h : (i, v) ∈ arr) :
    arr.lookup i = some v := by
  induction arr with
  | nil => cases h
  | cons p arr ih =>
    rw [List.map_cons, List.nodup_cons] at hn
    rcases List.mem_cons.1 h with rfl | h
    · exact List.lookup_cons_self
    · have hne : i ≠ p.1 := by
        rintro rfl
        exact hn.1 (List.mem_map.2 ⟨_, h, rfl⟩)
      rw [List.lookup_cons, beq_false_of_ne hne]
      exact ih hn.2 h

/-- Reading an array that holds a list laid out from one. -/
theorem lookup_of_perm {arr : Arr α} {l : List α} (h : arr.Perm (enum l)) {i : Nat} (hi : i < l.length) :
    arr.lookup (i + 1) = some l[i] := by
  refine lookup_of_mem (keys_nodup_of_perm h) (h.mem_iff.2 ((mem_enum _ _ _).2 ⟨Nat.succ_pos i, ?_⟩))
  rw [Nat.add_sub_cancel, List.getElem?_eq_getElem hi]

theorem length_of_perm {arr : Arr α} {l : List α} (h : arr.Perm (enum l)) : arr.length = l.length := by
  rw [h.length_eq, enum, List.length_map, List.length_zipIdx]

end ProGuide.Lib.SparseArray
