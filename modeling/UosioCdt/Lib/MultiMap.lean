import Mathlib.Order.Lattice
import Mathlib.Data.List.Basic
import Mathlib.Tactic.Basic

/-!
# Ordered maps from a key to a list

A `std::map<K, std::vector<V>>` that is filled by `map[key].push_back(value)` and read in key
order: a list of entries sorted by key.
-/

namespace MultiMap

variable {κ β : Type} [LinearOrder κ]

/-- `map[key].push_back(value)` -/
def pushBack : List (κ × List β) → κ → β → List (κ × List β)
  | [], key, value => [(key, [value])]
  | (k, vs) :: m, key, value =>
    if key = k then (k, vs ++ [value]) :: m
    else if key < k then (key, [value]) :: (k, vs) :: m
    else (k, vs) :: pushBack m key value

/-- `map[key]`, empty when there is no such key. -/
def get (m : List (κ × List β)) (key : κ) : List β := (m.lookup key).getD []

/-- The keys, in order. -/
def keys (m : List (κ × List β)) : List κ := m.map Prod.fst

/-- The entries are in strict key order. -/
def Sorted (m : List (κ × List β)) : Prop := (keys m).Pairwise (· < ·)

@[simp] lemma get_nil (key : κ) : get ([] : List (κ × List β)) key = [] := rfl

lemma get_cons (k : κ) (vs : List β) (m : List (κ × List β)) (key : κ) :
    get ((k, vs) :: m) key = if key = k then vs else get m key := by
  by_cases h : key = k
  · simp [get, h]
  · simp [get, List.lookup_cons, h, beq_false_of_ne h]

lemma get_of_notMem {m : List (κ × List β)} {key : κ} (h : key ∉ keys m) : get m key = [] := by
  induction m with
  | nil => rfl
  | cons e m ih =>
    simp only [keys, List.map_cons, List.mem_cons, not_or] at h
    rw [get_cons, if_neg h.1]
    exact ih h.2

lemma mem_keys_pushBack {m : List (κ × List β)} {key k : κ} {value : β} :
    k ∈ keys (pushBack m key value) ↔ k = key ∨ k ∈ keys m := by
  induction m with
  | nil => simp [pushBack, keys]
  | cons e m ih =>
    simp only [pushBack]
    split
    · rename_i h
      simp [keys, h]
    · split
      · simp [keys]
      · simp only [keys, List.map_cons, List.mem_cons] at ih ⊢
        rw [ih]
        exact or_left_comm

lemma Sorted.pushBack {m : List (κ × List β)} (h : Sorted m) (key : κ) (value : β) :
    Sorted (pushBack m key value) := by
  induction m with
  | nil => simp [MultiMap.pushBack, Sorted, keys]
  | cons e m ih =>
    obtain ⟨hhead, htail⟩ := List.pairwise_cons.mp h
    simp only [MultiMap.pushBack]
    split
    · exact List.pairwise_cons.mpr ⟨hhead, htail⟩
    · rename_i hne
      split
      · rename_i hlt
        refine List.pairwise_cons.mpr ⟨fun k hk => ?_, h⟩
        rcases List.mem_cons.mp hk with rfl | hk
        · exact hlt
        · exact lt_trans hlt (hhead k hk)
      · rename_i hnlt
        refine List.pairwise_cons.mpr ⟨fun k hk => ?_, ih htail⟩
        rcases mem_keys_pushBack.mp hk with rfl | hk
        · exact lt_of_le_of_ne (not_lt.mp hnlt) (Ne.symm hne)
        · exact hhead k hk

/-- Pushing a value changes the list of its key only. -/
lemma get_pushBack {m : List (κ × List β)} (h : Sorted m) (key k : κ) (value : β) :
    get (pushBack m key value) k = if k = key then get m k ++ [value] else get m k := by
  induction m with
  | nil => simp [pushBack, get_cons]
  | cons e m ih =>
    obtain ⟨hhead, htail⟩ := List.pairwise_cons.mp h
    simp only [pushBack]
    split
    · rename_i heq
      rw [get_cons, get_cons, heq]
      split <;> rfl
    · rename_i hne
      split
      · rename_i hlt
        -- the key is below every key of the map
        have hnot : key ∉ keys (e :: m) := by
          intro hmem
          rcases List.mem_cons.mp hmem with heq | hmem
          · exact hne heq
          · exact absurd (hhead key hmem) (not_lt.mpr (le_of_lt hlt))
        rw [get_cons]
        split
        · rename_i heq
          rw [heq, get_of_notMem hnot, List.nil_append]
        · rfl
      · rw [get_cons, get_cons, ih htail]
        by_cases hk : k = e.1
        · rw [if_pos hk, if_pos hk, if_neg (by rw [hk]; exact fun h => hne h.symm)]
        · rw [if_neg hk, if_neg hk]

/-- The entry of a key is what `get` reads. -/
lemma get_of_mem {m : List (κ × List β)} (h : Sorted m) {k : κ} {vs : List β}
    (hmem : (k, vs) ∈ m) : get m k = vs := by
  induction m with
  | nil => simp at hmem
  | cons e m ih =>
    obtain ⟨hhead, htail⟩ := List.pairwise_cons.mp h
    rw [get_cons]
    rcases List.mem_cons.mp hmem with heq | hmem
    · rw [← heq, if_pos rfl]
    · have hlt : e.1 < k := hhead k (List.mem_map_of_mem hmem)
      rw [if_neg (ne_of_gt hlt)]
      exact ih htail hmem

/-! ## Filling a map from a list -/

section pushAll

variable {α : Type} (key : α → κ) (value : α → β)

/-- `for (x : xs) map[key(x)].push_back(value(x))` -/
def pushAll (m : List (κ × List β)) (xs : List α) : List (κ × List β) :=
  xs.foldl (fun m x => pushBack m (key x) (value x)) m

@[simp] lemma pushAll_nil (m : List (κ × List β)) : pushAll key value m [] = m := rfl

@[simp] lemma pushAll_cons (m : List (κ × List β)) (x : α) (xs : List α) :
    pushAll key value m (x :: xs) = pushAll key value (pushBack m (key x) (value x)) xs := rfl

variable {key value}

lemma Sorted.pushAll {m : List (κ × List β)} (h : Sorted m) (xs : List α) :
    Sorted (pushAll key value m xs) := by
  induction xs generalizing m with
  | nil => exact h
  | cons x xs ih => exact ih (h.pushBack _ _)

lemma mem_keys_pushAll {m : List (κ × List β)} {xs : List α} {k : κ} :
    k ∈ keys (pushAll key value m xs) ↔ k ∈ keys m ∨ ∃ x ∈ xs, key x = k := by
  induction xs generalizing m with
  | nil => simp
  | cons x xs ih =>
    rw [pushAll_cons, ih, mem_keys_pushBack]
    simp only [List.mem_cons, exists_eq_or_imp, eq_comm (a := k)]
    tauto

/-- The values of a key are those pushed under it, in order. -/
lemma get_pushAll {m : List (κ × List β)} (h : Sorted m) (xs : List α) (k : κ) :
    get (pushAll key value m xs) k = get m k ++ (xs.filter (key · = k)).map value := by
  induction xs generalizing m with
  | nil => simp
  | cons x xs ih =>
    rw [pushAll_cons, ih (h.pushBack _ _), get_pushBack h, List.filter_cons]
    by_cases hk : k = key x
    · simp [hk]
    · rw [if_neg hk, if_neg (by simpa using fun h => hk h.symm)]

end pushAll

end MultiMap
