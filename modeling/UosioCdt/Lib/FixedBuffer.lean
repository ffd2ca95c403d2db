import Mathlib.Data.List.Basic
import Mathlib.Tactic.Lemma

/-!
# Buffers of a fixed size

A buffer is filled from the front. Within its size it is the list of what has been pushed.
-/

/-- The cells, and how many of them are filled. -/
structure FixedBuffer (α : Type) (n : ℕ) where
  cells : Vector α n
  index : ℕ
  index_le : index ≤ n

namespace FixedBuffer

variable {α : Type} {n : ℕ}

/-- What has been pushed. -/
def contents (b : FixedBuffer α n) : List α := b.cells.toList.take b.index

/-- Fill the next cell; `none` when there is none. -/
def push (b : FixedBuffer α n) (x : α) : Option (FixedBuffer α n) :=
  if h : b.index < n then some ⟨b.cells.set b.index x h, b.index + 1, h⟩ else none

/-- Start at the front again. -/
def clear (b : FixedBuffer α n) : FixedBuffer α n := ⟨b.cells, 0, Nat.zero_le n⟩

@[simp] lemma length_contents (b : FixedBuffer α n) : b.contents.length = b.index := by
  have hle := b.index_le
  rw [contents, List.length_take, Vector.length_toList]
  omega

/-- The next item goes behind those that are there. -/
lemma push_some {b : FixedBuffer α n} (h : b.contents.length < n) (x : α) :
    ∃ b', b.push x = some b' ∧ b'.contents = b.contents ++ [x] := by
  rw [length_contents] at h
  have hcells : b.index < b.cells.toList.length := by rwa [Vector.length_toList]
  have htake : (b.cells.toList.take b.index).length = b.index :=
    List.length_take_of_le (Nat.le_of_lt hcells)
  refine ⟨_, dif_pos h, ?_⟩
  rw [contents, contents, Vector.toList_set, List.take_set, List.take_add_one,
    List.getElem?_eq_getElem hcells, List.set_append_right _ _ (Nat.le_of_eq htake), htake,
    Nat.sub_self]
  rfl

lemma push_none {b : FixedBuffer α n} (h : n ≤ b.contents.length) (x : α) : b.push x = none := by
  rw [length_contents] at h
  exact dif_neg (Nat.not_lt.mpr h)

end FixedBuffer
