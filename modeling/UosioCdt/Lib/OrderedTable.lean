import Mathlib.Order.Basic
import Mathlib.Order.Lattice
import Mathlib.Data.List.Basic
import Mathlib.Tactic.Basic

/-!
# Ordered tables with handles

A table is a list of entries in strict key order. Every entry has a handle, by which it is updated,
removed, and left for its neighbours.
-/

namespace OrderedTable

/-- An entry: its key, its handle and its value. -/
structure Entry (κ β : Type) where
  key : κ
  itr : ℤ
  val : β

abbrev Table (κ β : Type) := List (Entry κ β)

variable {κ β : Type} [LinearOrder κ]

/-- The entries are in strict key order. -/
def Sorted (t : Table κ β) : Prop := t.Pairwise fun a b => a.key < b.key

/-- An entry is put at the place of its key. -/
def put : Table κ β → Entry κ β → Table κ β
  | [], e => [e]
  | x :: t, e => if e.key < x.key then e :: x :: t else x :: put t e

def remove (t : Table κ β) (k : κ) : Table κ β := t.filter fun e => e.key ≠ k

/-- The value at a key changes. -/
def setVal (t : Table κ β) (k : κ) (v : β) : Table κ β :=
  t.map fun e => if e.key = k then { e with val := v } else e

def lookup (t : Table κ β) (k : κ) : Option (Entry κ β) := t.find? fun e => e.key = k

/-- The first entry whose key is not below `k`. -/
def lowerBound (t : Table κ β) (k : κ) : Option (Entry κ β) := t.find? fun e => k ≤ e.key

/-- The first entry whose key is above `k`. -/
def upperBound (t : Table κ β) (k : κ) : Option (Entry κ β) := t.find? fun e => k < e.key

/-- The last entry whose key is below `k`. -/
def before (t : Table κ β) (k : κ) : Option (Entry κ β) := (t.filter fun e => e.key < k).getLast?

variable {t xs ys : Table κ β} {e x : Entry κ β} {k : κ} {v : β}

/-! ## Membership -/

lemma Sorted.eq_of_key (h : Sorted t) (he : e ∈ t) (hx : x ∈ t) (hkey : e.key = x.key) : e = x := by
  induction t with
  | nil => cases he
  | cons y t ih =>
    obtain ⟨hy, ht⟩ := List.pairwise_cons.mp h
    cases he with
    | head =>
      cases hx with
      | head => rfl
      | tail _ hx => exact absurd hkey (ne_of_lt (hy x hx))
    | tail _ he =>
      cases hx with
      | head => exact absurd hkey.symm (ne_of_lt (hy e he))
      | tail _ hx => exact ih ht he hx

lemma mem_put : x ∈ put t e ↔ x = e ∨ x ∈ t := by
  induction t with
  | nil => simp [put]
  | cons y t ih =>
    rw [put]
    split
    · simp
    · rw [List.mem_cons, ih, List.mem_cons]
      tauto

lemma mem_remove : x ∈ remove t k ↔ x ∈ t ∧ x.key ≠ k := by
  unfold remove
  rw [List.mem_filter, decide_eq_true_iff]

lemma mem_setVal : x ∈ setVal t k v ↔
    ∃ e ∈ t, x = if e.key = k then { e with val := v } else e := by
  unfold setVal
  rw [List.mem_map]
  exact exists_congr fun e => and_congr_right fun _ => eq_comm

/-! ## The order -/

lemma Sorted.put (h : Sorted t) (hnew : ∀ x ∈ t, x.key ≠ e.key) : Sorted (put t e) := by
  induction t with
  | nil => exact List.pairwise_singleton _ _
  | cons y t ih =>
    obtain ⟨hy, ht⟩ := List.pairwise_cons.mp h
    unfold OrderedTable.put
    split
    · rename_i hlt
      refine List.pairwise_cons.mpr ⟨fun z hz => ?_, h⟩
      rcases List.mem_cons.mp hz with rfl | hz
      · exact hlt
      · exact lt_trans hlt (hy z hz)
    · rename_i hge
      refine List.pairwise_cons.mpr ⟨fun z hz => ?_, ih ht fun x hx => hnew x (List.mem_cons_of_mem _ hx)⟩
      rcases mem_put.mp hz with rfl | hz
      · exact lt_of_le_of_ne (not_lt.mp hge) (hnew y List.mem_cons_self)
      · exact hy z hz

lemma Sorted.remove (h : Sorted t) : Sorted (remove t k) := List.Pairwise.filter _ h

lemma Sorted.setVal (h : Sorted t) : Sorted (setVal t k v) := by
  unfold Sorted OrderedTable.setVal
  rw [List.pairwise_map]
  refine List.Pairwise.imp (fun {a b} hab => ?_) h
  have hkey : ∀ c : Entry κ β, (if c.key = k then { c with val := v } else c).key = c.key := by
    intro c
    split <;> rfl
  rw [hkey, hkey]
  exact hab

/-! ## Searches -/

lemma lookup_eq_some (h : Sorted t) (he : e ∈ t) : lookup t e.key = some e := by
  unfold lookup
  cases hfind : t.find? fun x => decide (x.key = e.key) with
  | none => simpa using List.find?_eq_none.mp hfind e he
  | some x =>
    have hx := List.find?_some hfind
    rw [decide_eq_true_iff] at hx
    rw [h.eq_of_key (List.mem_of_find?_eq_some hfind) he hx]

/-- The table around one of its entries. -/
lemma Sorted.split (h : Sorted (xs ++ e :: ys)) :
    (∀ x ∈ xs, x.key < e.key) ∧ (∀ y ∈ ys, e.key < y.key) := by
  unfold Sorted at h
  rw [List.pairwise_append, List.pairwise_cons] at h
  exact ⟨fun x hx => h.2.2 x hx e List.mem_cons_self, h.2.1.1⟩

/-- Behind an entry comes the next one. -/
lemma upperBound_split (h : Sorted (xs ++ e :: ys)) :
    upperBound (xs ++ e :: ys) e.key = ys.head? := by
  obtain ⟨hxs, hys⟩ := h.split
  unfold upperBound
  rw [List.find?_append, List.find?_eq_none.mpr fun x hx => by simpa using (hxs x hx).le,
    Option.none_or, List.find?_cons_of_neg (by simp)]
  cases ys with
  | nil => rfl
  | cons y ys =>
    rw [List.find?_cons_of_pos (by simpa using hys y List.mem_cons_self)]
    rfl

/-- In front of an entry comes the previous one. -/
lemma before_split (h : Sorted (xs ++ e :: ys)) : before (xs ++ e :: ys) e.key = xs.getLast? := by
  obtain ⟨hxs, hys⟩ := h.split
  have hbefore : xs.filter (fun x => x.key < e.key) = xs :=
    List.filter_eq_self.mpr fun x hx => by simpa using hxs x hx
  have hbehind : (e :: ys).filter (fun x => x.key < e.key) = [] := by
    refine List.filter_eq_nil_iff.mpr fun x hx => ?_
    rcases List.mem_cons.mp hx with rfl | hx
    · simp
    · simpa using (hys x hx).le
  unfold before
  rw [List.filter_append, hbefore, hbehind, List.append_nil]

/-- A lower bound of all keys is the start of the table. -/
lemma lowerBound_of_le (hk : ∀ x ∈ t, k ≤ x.key) : lowerBound t k = t.head? := by
  cases t with
  | nil => rfl
  | cons x t =>
    unfold lowerBound
    rw [List.find?_cons_of_pos (by simpa using hk x List.mem_cons_self)]
    rfl

/-- The last entry has the greatest key. -/
lemma Sorted.le_getLast (h : Sorted t) (hlast : t.getLast? = some e) (hx : x ∈ t) :
    x.key ≤ e.key := by
  obtain ⟨xs, rfl⟩ := List.getLast?_eq_some_iff.mp hlast
  rcases List.mem_append.mp hx with hx | hx
  · exact (h.split.1 x hx).le
  · rw [List.mem_singleton.mp hx]

/-- Among values in order, the first that is not below `r` is the first that is `r`, if there is
one. -/
lemma find?_le_filter_eq {α : Type} {f : α → κ} {l : List α} (h : l.Pairwise fun a b => f a ≤ f b)
    (r : κ) : ((l.find? fun a => r ≤ f a).filter fun a => r = f a) = l.find? fun a => r = f a := by
  induction l with
  | nil => rfl
  | cons a l ih =>
    obtain ⟨ha, hl⟩ := List.pairwise_cons.mp h
    by_cases hle : r ≤ f a
    · rw [List.find?_cons_of_pos (by simpa using hle)]
      by_cases heq : r = f a
      · rw [List.find?_cons_of_pos (by simpa using heq), Option.filter_some_pos (by simpa using heq)]
      · rw [List.find?_cons_of_neg (by simpa using heq), Option.filter_some_neg (by simpa using heq)]
        symm
        rw [List.find?_eq_none]
        intro b hb
        have hlt : r < f b := lt_of_lt_of_le (lt_of_le_of_ne hle heq) (ha b hb)
        simpa using ne_of_lt hlt
    · have hne : r ≠ f a := fun heq => hle heq.le
      rw [List.find?_cons_of_neg (by simpa using hle), List.find?_cons_of_neg (by simpa using hne)]
      exact ih hl

/-! ## Places -/

/-- What is in front of a place in the table. -/
def inFront (t : Table κ β) : Option (Entry κ β) → Option (Entry κ β)
  | some e => before t e.key
  | none => t.getLast?

lemma mem_of_inFront {o : Option (Entry κ β)} (h : inFront t o = some e) : e ∈ t := by
  cases o with
  | none => exact List.mem_of_getLast? h
  | some x => exact (List.mem_filter.mp (List.mem_of_getLast? h)).1

omit [LinearOrder κ] in
lemma split_at {n : ℕ} (h : t[n]? = some e) : t = t.take n ++ e :: t.drop (n + 1) := by
  obtain ⟨hlt, rfl⟩ := List.getElem?_eq_some_iff.mp h
  rw [List.getElem_cons_drop, List.take_append_drop]

/-- Behind the place of an entry is the next place. -/
lemma upperBound_at {n : ℕ} (h : Sorted t) (he : t[n]? = some e) :
    upperBound t e.key = t[n + 1]? := by
  have hsplit := split_at he
  rw [hsplit] at h
  have hupper := upperBound_split h
  rw [← hsplit, List.head?_drop] at hupper
  exact hupper

/-- In front of a place is the one before it. -/
lemma inFront_at {n : ℕ} (h : Sorted t) (hn : n < t.length) : inFront t t[n + 1]? = t[n]? := by
  cases he : t[n + 1]? with
  | none =>
    have hlast : n + 1 = t.length := by
      have := List.getElem?_eq_none_iff.mp he
      omega
    show t.getLast? = _
    rw [List.getLast?_eq_getElem?, ← hlast, Nat.add_sub_cancel]
  | some e =>
    have hsplit := split_at he
    show before t e.key = _
    rw [hsplit] at h
    have hbefore := before_split h
    rw [← hsplit, List.getLast?_take] at hbefore
    rw [hbefore, if_neg (Nat.succ_ne_zero n), Nat.add_sub_cancel, List.getElem?_eq_getElem hn]
    rfl

/-- There is nothing in front of the first place. -/
lemma inFront_first (h : Sorted t) : inFront t t[0]? = none := by
  cases t with
  | nil => rfl
  | cons e t =>
    rw [← List.nil_append (e :: t)] at h ⊢
    exact before_split h

lemma Sorted.at_inj {n n' : ℕ} (h : Sorted t) (he : t[n]? = some e) (hx : t[n']? = some x)
    (hkey : e.key = x.key) : n = n' := by
  obtain ⟨hlt, rfl⟩ := List.getElem?_eq_some_iff.mp he
  obtain ⟨hlt', rfl⟩ := List.getElem?_eq_some_iff.mp hx
  have hpairs := List.pairwise_iff_getElem.mp h
  rcases Nat.lt_trichotomy n n' with hn | hn | hn
  · exact absurd hkey (ne_of_lt (hpairs n n' hlt hlt' hn))
  · exact hn
  · exact absurd hkey.symm (ne_of_lt (hpairs n' n hlt' hlt hn))

end OrderedTable
