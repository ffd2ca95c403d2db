import Mathlib.Algebra.BigOperators.Group.List.Basic
import Mathlib.Data.List.Lex

/-!
# Lists cut into chunks

* `chunks n`: the list in chunks of length `n`, of which the last one may be shorter;
* `chunk_induction`: a property of the empty list and of shorter lists that a chunk in front keeps;
* blocks of one length, which their concatenation determines (`flatMap_injective`) and orders
  (`flatMap_lt_flatMap_iff`).
-/

namespace Chunks

variable {α β : Type} {n m : ℕ}

/-- The chunks of a list, each of length `n` but for the last one. -/
def chunks (n : ℕ) (l : List α) : List (List α) :=
  if _ : l = [] ∨ n = 0 then [] else l.take n :: chunks n (l.drop n)
termination_by l.length
decreasing_by
  rename_i h
  rw [not_or, ← List.length_eq_zero_iff] at h
  rw [List.length_drop]
  omega

@[simp] lemma chunks_nil (n : ℕ) : chunks n ([] : List α) = [] := by
  rw [chunks, dif_pos (.inl rfl)]

/-- A shorter list is one chunk. -/
lemma chunks_short {l : List α} (hpos : 0 < l.length) (h : l.length ≤ n) : chunks n l = [l] := by
  have hne : ¬ (l = [] ∨ n = 0) := by
    rw [not_or, ← List.length_eq_zero_iff]
    omega
  rw [chunks, dif_neg hne, List.take_of_length_le h, List.drop_of_length_le h, chunks_nil]

/-- A chunk in front of a list. -/
lemma chunks_append {xs : List α} (hxs : xs.length = n) (hn : 0 < n) (l : List α) :
    chunks n (xs ++ l) = xs :: chunks n l := by
  have hne : ¬ (xs ++ l = [] ∨ n = 0) := by
    rw [not_or, ← List.length_eq_zero_iff, List.length_append]
    omega
  rw [chunks, dif_neg hne, List.take_left' hxs, List.drop_left' hxs]

/-- Induction over the chunks of a list. -/
theorem chunk_induction {P : List α → Prop} (hn : 0 < n) (nil : P [])
    (short : ∀ l : List α, 0 < l.length → l.length < n → P l)
    (chunk : ∀ xs l : List α, xs.length = n → P l → P (xs ++ l)) (l : List α) : P l := by
  induction hlen : l.length using Nat.strongRecOn generalizing l with
  | ind k ih =>
    by_cases hlong : n ≤ k
    · have hrest : P (l.drop n) := ih (k - n) (by omega) _ (by rw [List.length_drop, hlen])
      rw [← List.take_append_drop n l]
      exact chunk _ _ (by rw [List.length_take]; omega) hrest
    · by_cases hzero : k = 0
      · rw [hzero, List.length_eq_zero_iff] at hlen
        rw [hlen]
        exact nil
      · exact short l (by omega) (by omega)

lemma flatten_chunks (hn : 0 < n) (l : List α) : (chunks n l).flatten = l := by
  induction l using chunk_induction hn with
  | nil => rw [chunks_nil, List.flatten_nil]
  | short l hpos hlt => rw [chunks_short hpos hlt.le, List.flatten_singleton]
  | chunk xs l hxs ih => rw [chunks_append hxs hn, List.flatten_cons, ih]

lemma length_chunks (hn : 0 < n) (l : List α) :
    (chunks n l).length = (l.length + n - 1) / n := by
  induction l using chunk_induction hn with
  | nil =>
    rw [chunks_nil, List.length_nil, List.length_nil, Nat.zero_add,
      Nat.div_eq_of_lt (Nat.sub_lt hn Nat.one_pos)]
  | short l hpos hlt =>
    rw [chunks_short hpos hlt.le, List.length_singleton,
      show l.length + n - 1 = l.length - 1 + n by omega, Nat.add_div_right _ hn,
      Nat.div_eq_of_lt (by omega)]
  | chunk xs l hxs ih =>
    rw [chunks_append hxs hn, List.length_cons, ih, List.length_append, hxs,
      show n + l.length + n - 1 = l.length + n - 1 + n by omega, Nat.add_div_right _ hn]

lemma mem_of_mem_chunks (hn : 0 < n) {l xs : List α} (hxs : xs ∈ chunks n l) {x : α}
    (hx : x ∈ xs) : x ∈ l := by
  rw [← flatten_chunks hn l]
  exact List.mem_flatten.mpr ⟨xs, hxs, hx⟩

lemma length_le_of_mem_chunks (hn : 0 < n) {l xs : List α} (hxs : xs ∈ chunks n l) :
    xs.length ≤ n := by
  induction l using chunk_induction hn with
  | nil =>
    rw [chunks_nil] at hxs
    cases hxs
  | short l hpos hlt =>
    rw [chunks_short hpos hlt.le, List.mem_singleton] at hxs
    rw [hxs]
    exact hlt.le
  | chunk ys l hys ih =>
    rw [chunks_append hys hn, List.mem_cons] at hxs
    rcases hxs with rfl | hxs
    · exact hys.le
    · exact ih hxs

lemma length_flatten_of_forall {p : List (List α)} (hp : ∀ g ∈ p, g.length = m) :
    p.flatten.length = m * p.length := by
  rw [List.length_flatten, List.map_congr_left hp, List.map_const', List.sum_replicate_nat,
    Nat.mul_comm]

/-- Full chunks in front of a list. -/
lemma chunks_append_of_dvd (hn : 0 < n) {q : List α} (hq : n ∣ q.length) (t : List α) :
    chunks n (q ++ t) = chunks n q ++ chunks n t := by
  induction q using chunk_induction hn with
  | nil => rw [chunks_nil, List.nil_append, List.nil_append]
  | short q hpos hlt => exact absurd (Nat.le_of_dvd hpos hq) (Nat.not_le_of_lt hlt)
  | chunk xs q hxs ih =>
    rw [List.length_append, hxs, Nat.dvd_add_right (Nat.dvd_refl n)] at hq
    rw [List.append_assoc, chunks_append hxs hn, ih hq, chunks_append hxs hn, List.cons_append]

lemma length_of_mem_chunks (hn : 0 < n) {l xs : List α} (hl : n ∣ l.length)
    (hxs : xs ∈ chunks n l) : xs.length = n := by
  induction l using chunk_induction hn with
  | nil =>
    rw [chunks_nil] at hxs
    cases hxs
  | short l hpos hlt => exact absurd (Nat.le_of_dvd hpos hl) (Nat.not_le_of_lt hlt)
  | chunk ys l hys ih =>
    rw [chunks_append hys hn, List.mem_cons] at hxs
    rw [List.length_append, hys, Nat.dvd_add_right (Nat.dvd_refl n)] at hl
    rcases hxs with rfl | hxs
    · exact hys
    · exact ih hl hxs

/-! ## Blocks of one length -/

section blocks

variable {f : α → List β}

/-- Blocks of one length are determined by their concatenation. -/
lemma flatMap_injective (hlen : ∀ x, (f x).length = m) (hf : Function.Injective f)
    {xs ys : List α} (h : xs.length = ys.length) (heq : xs.flatMap f = ys.flatMap f) :
    xs = ys := by
  induction xs generalizing ys with
  | nil => exact (List.length_eq_zero_iff.mp h.symm).symm
  | cons x xs ih =>
    obtain ⟨y, ys, rfl⟩ := List.exists_cons_of_length_eq_add_one h.symm
    rw [List.flatMap_cons, List.flatMap_cons] at heq
    obtain ⟨hhead, htail⟩ := List.append_inj heq (by rw [hlen, hlen])
    rw [hf hhead, ih (Nat.succ.inj h) htail]

/-- Without the first blocks. -/
lemma flatMap_drop (hlen : ∀ x, (f x).length = m) (l : List α) (k : ℕ) :
    (l.drop k).flatMap f = (l.flatMap f).drop (m * k) := by
  induction k generalizing l with
  | zero => rw [List.drop_zero, Nat.mul_zero, List.drop_zero]
  | succ k ih =>
    cases l with
    | nil => rw [List.drop_nil, List.flatMap_nil, List.drop_nil]
    | cons x l =>
      rw [List.drop_succ_cons, ih, List.flatMap_cons, Nat.mul_succ, Nat.add_comm, ← hlen x,
        List.drop_length_add_append]

/-- A list that also begins behind some copies of one element is made of this element. -/
lemma eq_of_prefix_replicate_append {a : α} {k : ℕ} {l : List α}
    (h : l <+: List.replicate (k + 1) a ++ l) : ∀ x ∈ l, x = a := by
  induction l with
  | nil => exact fun x hx => absurd hx List.not_mem_nil
  | cons y l ih =>
    rw [List.replicate_succ, List.cons_append, List.cons_prefix_cons] at h
    obtain ⟨rfl, hrest⟩ := h
    -- the head is one more copy in front of the rest
    have hshift : List.replicate k y ++ y :: l = List.replicate (k + 1) y ++ l := by
      rw [List.replicate_succ', List.append_assoc, List.singleton_append]
    rw [hshift] at hrest
    intro x hx
    rcases List.mem_cons.mp hx with rfl | hx
    · rfl
    · exact ih hrest x hx

variable [LT α] [LT β]

/-- Behind parts of one length the order is decided by the first parts, or by the rest. -/
lemma append_lt_append_iff {xs ys us vs : List α} (h : xs.length = ys.length) :
    xs ++ us < ys ++ vs ↔ xs < ys ∨ xs = ys ∧ us < vs := by
  induction xs generalizing ys with
  | nil =>
    obtain rfl := List.length_eq_zero_iff.mp h.symm
    simp
  | cons x xs ih =>
    obtain ⟨y, ys, rfl⟩ := List.exists_cons_of_length_eq_add_one h.symm
    rw [List.cons_append, List.cons_append, List.cons_lt_cons_iff, List.cons_lt_cons_iff,
      ih (Nat.succ.inj h), List.cons.injEq]
    tauto

/-- Blocks in the order of their values keep the lexicographic order. -/
theorem flatMap_lt_flatMap_iff (hlen : ∀ x, (f x).length = m) (hf : Function.Injective f)
    (hlt : ∀ x y, f x < f y ↔ x < y) {xs ys : List α} (h : xs.length = ys.length) :
    xs.flatMap f < ys.flatMap f ↔ xs < ys := by
  induction xs generalizing ys with
  | nil =>
    obtain rfl := List.length_eq_zero_iff.mp h.symm
    simp
  | cons x xs ih =>
    obtain ⟨y, ys, rfl⟩ := List.exists_cons_of_length_eq_add_one h.symm
    rw [List.flatMap_cons, List.flatMap_cons, append_lt_append_iff (by rw [hlen, hlen]),
      List.cons_lt_cons_iff, hlt, hf.eq_iff, ih (Nat.succ.inj h)]

end blocks

end Chunks
