import Mathlib.Data.List.Infix
import Mathlib.Data.List.Nodup

/-!
# Tables that only grow

Interning puts a value at the end of a table unless the table has it. What was at an index stays
there, so an index that was given out once can be used with every later table.
-/

namespace Interning

variable {α : Type}

section grows

variable {table table' : List α} {x : α} {i : ℕ}

lemma getElem?_of_prefix (h : table <+: table') (hx : table[i]? = some x) : table'[i]? = some x := by
  obtain ⟨rest, rfl⟩ := h
  rw [List.getElem?_append_left (List.getElem?_eq_some_iff.mp hx).1]
  exact hx

end grows

/-- A pass with an invariant, whose steps are in a relation: so is the whole pass, and the rest of it
behind each of its steps. -/
theorem foldl_passes {ω ι : Type} {R : ω → ω → Prop} {I : ω → Prop} {f : ω → ι → ω} {l : List ι}
    {st : ω} (hrefl : ∀ st, R st st) (htrans : ∀ st st' st'', R st st' → R st' st'' → R st st'')
    (hstep : ∀ x ∈ l, ∀ st, I st → I (f st x) ∧ R st (f st x)) (h : I st) :
    I (l.foldl f st) ∧ R st (l.foldl f st) ∧ ∀ x ∈ l, ∃ st', I st' ∧ R (f st' x) (l.foldl f st) := by
  induction l generalizing st with
  | nil => exact ⟨h, hrefl st, fun x hx => absurd hx List.not_mem_nil⟩
  | cons y l ih =>
    obtain ⟨hkept, hrel⟩ := hstep y List.mem_cons_self st h
    obtain ⟨hfinal, hrest, hpasses⟩ := ih (fun x hx => hstep x (List.mem_cons_of_mem _ hx)) hkept
    refine ⟨hfinal, htrans _ _ _ hrel hrest, fun x hx => ?_⟩
    rcases List.mem_cons.mp hx with rfl | hx
    · exact ⟨st, h, hrest⟩
    · exact hpasses x hx

variable [DecidableEq α] {table : List α} {x y : α} {xs : List α}

def intern (table : List α) (x : α) : List α := if x ∈ table then table else table ++ [x]

lemma prefix_intern (table : List α) (x : α) : table <+: intern table x := by
  unfold intern
  split
  · exact List.prefix_rfl
  · exact List.prefix_append _ _

lemma mem_intern_self (table : List α) (x : α) : x ∈ intern table x := by
  unfold intern
  split
  · assumption
  · exact List.mem_append_right _ (List.mem_singleton_self x)

/-- The index of the value in the table that has it. -/
lemma getElem?_intern (table : List α) (x : α) :
    (intern table x)[(intern table x).idxOf x]? = some x :=
  List.getElem?_idxOf (mem_intern_self table x)

def internAll (table xs : List α) : List α := xs.foldl intern table

lemma prefix_internAll (table xs : List α) : table <+: internAll table xs := by
  induction xs generalizing table with
  | nil => exact List.prefix_rfl
  | cons x xs ih => exact (prefix_intern table x).trans (ih _)

lemma mem_internAll (h : x ∈ xs) : x ∈ internAll table xs := by
  induction xs generalizing table with
  | nil => exact absurd h List.not_mem_nil
  | cons y xs ih =>
    rcases List.mem_cons.mp h with rfl | h
    · exact (prefix_internAll _ xs).subset (mem_intern_self table x)
    · exact ih h

end Interning
