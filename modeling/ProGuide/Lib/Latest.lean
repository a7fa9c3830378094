import Mathlib.Data.List.Nodup
/-!
# The last write of each key

A store written entry by entry, where a write takes the place of the entry with
its key, holds the writes that no later write of their key follows.
-/

namespace ProGuide.Lib.Latest

variable {α κ : Type} [DecidableEq κ] (key : α → κ)

/-- The store after a write: the entry of its key goes, and it comes last. -/
def put (l : List α) (x : α) : List α := l.filter (key · ≠ key x) ++ [x]

/-- The writes that no later write of the same key follows, in their order. -/
def latest : List α → List α
  | [] => []
  | x :: xs => if key x ∈ xs.map key then latest xs else x :: latest xs

theorem latest_sublist (xs : List α) : (latest key xs).Sublist xs := by
  induction xs with
  | nil => exact List.Sublist.slnil
  | cons x xs ih =>
    rw [latest]
    split
    · exact ih.cons x
    · exact ih.cons_cons x

theorem mem_latest_key (xs : List α) (k : κ) : k ∈ (latest key xs).map key ↔ k ∈ xs.map key := by
  induction xs with
  | nil => rfl
  | cons x xs ih =>
    rw [latest]
    split
    · next hx =>
      rw [ih, List.map_cons, List.mem_cons]
      constructor
      · exact Or.inr
      · rintro (rfl | h)
        · exact hx
        · exact h
    · rw [List.map_cons, List.map_cons, List.mem_cons, List.mem_cons, ih]

/-- One entry for each key. -/
theorem latest_nodup (xs : List α) : ((latest key xs).map key).Nodup := by
  induction xs with
  | nil => exact List.nodup_nil
  | cons x xs ih =>
    rw [latest]
    split
    · exact ih
    · next hx =>
      rw [List.map_cons, List.nodup_cons, mem_latest_key]
      exact ⟨hx, ih⟩

/-- An entry of the store is the last write of its key. -/
theorem mem_latest {xs : List α} {x : α} (h : x ∈ latest key xs) :
    ∃ pre post, xs = pre ++ x :: post ∧ key x ∉ post.map key := by
  induction xs with
  | nil => cases h
  | cons y xs ih =>
    rw [latest] at h
    split at h
    · obtain ⟨pre, post, rfl, hpost⟩ := ih h
      exact ⟨y :: pre, post, rfl, hpost⟩
    · next hy =>
      rcases List.mem_cons.1 h with rfl | h
      · exact ⟨[], xs, rfl, hy⟩
      · obtain ⟨pre, post, rfl, hpost⟩ := ih h
        exact ⟨y :: pre, post, rfl, hpost⟩

/-- The entries stand in the order of the last writes of their keys: from the
last write of the later one on, nothing has the key of the earlier one. -/
theorem latest_pairwise (xs : List α) : (latest key xs).Pairwise fun x y =>
    ∃ pre post, xs = pre ++ y :: post ∧ key y ∉ post.map key ∧ key x ∉ (y :: post).map key := by
  induction xs with
  | nil => exact List.Pairwise.nil
  | cons z xs ih =>
    have hlift : (latest key xs).Pairwise fun x y =>
        ∃ pre post, z :: xs = pre ++ y :: post ∧ key y ∉ post.map key ∧ key x ∉ (y :: post).map key := by
      refine ih.imp ?_
      rintro x y ⟨pre, post, rfl, hy, hx⟩
      exact ⟨z :: pre, post, rfl, hy, hx⟩
    rw [latest]
    split
    · exact hlift
    · next hz =>
      refine List.pairwise_cons.2 ⟨fun y hy => ?_, hlift⟩
      obtain ⟨pre, post, rfl, hpost⟩ := mem_latest key hy
      refine ⟨z :: pre, post, rfl, hpost, fun hmem => hz ?_⟩
      rw [List.map_append]
      exact List.mem_append_right _ hmem

/-- One more write is a `put`. -/
theorem latest_append (xs : List α) (x : α) : latest key (xs ++ [x]) = put key (latest key xs) x := by
  induction xs with
  | nil => rfl
  | cons y xs ih =>
    have hmem : key y ∈ (xs ++ [x]).map key ↔ key y ∈ xs.map key ∨ key y = key x := by
      rw [List.map_append, List.mem_append, List.map_singleton, List.mem_singleton]
    rw [List.cons_append, latest, latest, ih]
    by_cases hy : key y ∈ xs.map key
    · rw [if_pos (hmem.2 (Or.inl hy)), if_pos hy]
    · by_cases hyx : key y = key x
      · rw [if_pos (hmem.2 (Or.inr hyx)), if_neg hy]
        simp [put, hyx]
      · rw [if_neg (fun h => (hmem.1 h).elim hy hyx), if_neg hy]
        simp [put, hyx]

end ProGuide.Lib.Latest
