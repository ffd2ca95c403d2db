import Mathlib.Data.List.Basic
import Mathlib.Data.List.Count
import Mathlib.Tactic.Lemma

/-!
# First come, first registered

An item has several names. It is accepted when none of them has been taken, and afterwards they are
all taken, whether it was accepted or not.
-/

namespace Registration

variable {α ν : Type} [DecidableEq ν] (names : α → List ν)

def accepted : List ν → List α → List α
  | _, [] => []
  | taken, x :: xs =>
    if ∀ n ∈ names x, n ∉ taken then x :: accepted (names x ++ taken) xs
    else accepted (names x ++ taken) xs

/-- Different items of the list share no name. -/
def Apart (l : List α) : Prop := ∀ x ∈ l, ∀ y ∈ l, x ≠ y → List.Disjoint (names x) (names y)

variable {names} {taken : List ν} {x y : α} {l : List α}

lemma accepted_cons_of_free (h : ∀ n ∈ names x, n ∉ taken) :
    accepted names taken (x :: l) = x :: accepted names (names x ++ taken) l := if_pos h

lemma accepted_cons_of_taken (h : ¬ ∀ n ∈ names x, n ∉ taken) :
    accepted names taken (x :: l) = accepted names (names x ++ taken) l := if_neg h

/-- An accepted item had no taken name. -/
lemma free_of_mem_accepted (h : x ∈ accepted names taken l) : List.Disjoint (names x) taken := by
  induction l generalizing taken with
  | nil => exact absurd h List.not_mem_nil
  | cons y l ih =>
    have htail (h : x ∈ accepted names (names y ++ taken) l) : List.Disjoint (names x) taken :=
      (List.disjoint_append_right.mp (ih h)).2
    by_cases hy : ∀ n ∈ names y, n ∉ taken
    · rw [accepted_cons_of_free hy] at h
      rcases List.mem_cons.mp h with rfl | h
      · exact fun n hn => hy n hn
      · exact htail h
    · rw [accepted_cons_of_taken hy] at h
      exact htail h

/-- Two accepted items share no name. -/
lemma disjoint_of_mem_accepted (hx : x ∈ accepted names taken l) (hy : y ∈ accepted names taken l)
    (hne : x ≠ y) : List.Disjoint (names x) (names y) := by
  induction l generalizing taken with
  | nil => exact absurd hx List.not_mem_nil
  | cons z l ih =>
    by_cases hz : ∀ n ∈ names z, n ∉ taken
    · rw [accepted_cons_of_free hz] at hx hy
      rcases List.mem_cons.mp hx with rfl | hx
      · rcases List.mem_cons.mp hy with rfl | hy
        · exact absurd rfl hne
        · exact List.disjoint_comm.mp (List.disjoint_append_right.mp (free_of_mem_accepted hy)).1
      · rcases List.mem_cons.mp hy with rfl | hy
        · exact (List.disjoint_append_right.mp (free_of_mem_accepted hx)).1
        · exact ih hx hy
    · rw [accepted_cons_of_taken hz] at hx hy
      exact ih hx hy

lemma mem_accepted_of_apart (h : Apart names l) (hfree : List.Disjoint (names x) taken)
    (hx : x ∈ l) : x ∈ accepted names taken l := by
  induction l generalizing taken with
  | nil => exact absurd hx List.not_mem_nil
  | cons y l ih =>
    have htail : Apart names l :=
      fun a ha b hb => h a (List.mem_cons_of_mem y ha) b (List.mem_cons_of_mem y hb)
    by_cases hxy : x = y
    · subst hxy
      rw [accepted_cons_of_free fun n hn => hfree hn]
      exact List.mem_cons_self
    · have hmem : x ∈ accepted names (names y ++ taken) l := by
        apply ih htail
        · apply List.disjoint_append_right.mpr
          exact ⟨h x hx y List.mem_cons_self hxy, hfree⟩
        · exact List.mem_of_ne_of_mem hxy hx
      by_cases hy : ∀ n ∈ names y, n ∉ taken
      · rw [accepted_cons_of_free hy]
        exact List.mem_cons_of_mem y hmem
      · rw [accepted_cons_of_taken hy]
        exact hmem

variable [BEq α] [LawfulBEq α]

/-- An item with a name is accepted at most once. -/
lemma count_accepted_le_one (hne : names x ≠ []) : (accepted names taken l).count x ≤ 1 := by
  induction l generalizing taken with
  | nil => simp [accepted]
  | cons y l ih =>
    by_cases hy : ∀ n ∈ names y, n ∉ taken
    · rw [accepted_cons_of_free hy]
      by_cases hxy : x = y
      · subst hxy
        -- its own names are taken from here on
        have hout : x ∉ accepted names (names x ++ taken) l := by
          intro hmem
          obtain ⟨n, hn⟩ := List.exists_mem_of_ne_nil _ hne
          exact free_of_mem_accepted hmem hn (List.mem_append_left _ hn)
        apply Nat.le_of_eq
        rw [List.count_cons_self, List.count_eq_zero_of_not_mem hout]
      · rw [List.count_cons_of_ne (Ne.symm hxy)]
        exact ih
    · rw [accepted_cons_of_taken hy]
      exact ih

/-- Every item is accepted exactly once when different items share no name, and only then. -/
theorem count_accepted_eq_one_iff (hne : ∀ x, names x ≠ []) :
    (∀ x ∈ l, (accepted names [] l).count x = 1) ↔ Apart names l := by
  constructor
  · intro h x hx y hy hxy
    have hmem (z : α) (hz : z ∈ l) : z ∈ accepted names [] l := by
      apply List.count_pos_iff.mp
      rw [h z hz]
      exact Nat.one_pos
    exact disjoint_of_mem_accepted (hmem x hx) (hmem y hy) hxy
  · intro h x hx
    apply Nat.le_antisymm (count_accepted_le_one (hne x))
    exact List.one_le_count_iff.mpr (mem_accepted_of_apart h (List.disjoint_nil_right _) hx)

end Registration
