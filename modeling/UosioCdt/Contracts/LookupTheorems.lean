import UosioCdt.Contracts.Invariant
import Mathlib.Data.List.Nodup

/-!
# Lookups in the primary table

Every lookup returns, keeps what is cached, and finds the row that the ordered table has.
-/

namespace UosioCdt.Contracts

open MultiIndex OrderedTable Aborting

variable {C T κ ρ : Type} [LinearOrder ρ]
variable {m : MultiIndex C T κ ρ} {d : OrderedMaps m.db m.rank}
variable {s : State C T} {p k : ℕ} {e : Entry ℕ Row}

/-! ## Memory -/

section Memory

variable {α : Type} {E : String → State C T → Prop}

lemma meets_check_pos {test : Prop} [Decidable test] {message : String} {Q : Unit → State C T → Prop}
    (h : test) : Meets (check test message) s Q E ↔ Q () s := by
  unfold check
  rw [if_pos h]
  exact meets_pure

lemma meets_check_neg {test : Prop} [Decidable test] {message : String} {Q : Unit → State C T → Prop}
    (h : ¬ test) : Meets (check test message) s Q E ↔ E message s := by
  unfold check
  rw [if_neg h]
  exact meets_throw

/-- Reading a live item leaves no trace. -/
lemma meets_readItem {Q : Item T → State C T → Prop} (h : s.Live p) :
    Meets (readItem p) s Q E ↔ Q (s.items p) s := by
  have hstate : ({ s with readDiscarded := s.readDiscarded || !decide (s.Live p) } : State C T) = s := by
    rw [decide_eq_true h, Bool.not_true, Bool.or_false]
  unfold readItem
  rw [meets_bind, meets_get, meets_bind, meets_modify, meets_pure, hstate]

lemma meets_writeItem {f : Item T → Item T} {Q : Unit → State C T → Prop} :
    Meets (writeItem p f) s Q E ↔
      Q () { s with items := Function.update s.items p (f (s.items p)) } := Iff.rfl

lemma meets_deref {Q : ℕ → State C T → Prop} : Meets (deref (some p)) s Q E ↔ Q p s := Iff.rfl

lemma meets_map {β : Type} {x : Fn C T α} {f : α → β} {Q : β → State C T → Prop} :
    Meets (f <$> x) s Q E ↔ Meets x s (fun a s' => Q (f a) s') E := by
  rw [map_eq_pure_bind, meets_bind]
  exact Iff.rfl

end Memory

/-! ## Items -/

/-- The search by key looks at live items only. -/
lemma meets_findItem {E : String → State C T → Prop} {Q : Option ItemPtr → State C T → Prop}
    (h : CacheOk m d s) {ptrs : List ItemPtr} (hptrs : ∀ ptr ∈ ptrs, ptr ∈ s.itemsVector) :
    Meets (m.findItem k ptrs) s Q E ↔ Q (ptrs.find? fun ptr => ptr.primaryKey = k) s := by
  induction ptrs with
  | nil => exact meets_pure
  | cons ptr ptrs ih =>
    have hptr := hptrs ptr List.mem_cons_self
    have hpk := h.primaryKey ptr hptr
    unfold findItem
    rw [meets_bind, meets_readItem ⟨ptr, hptr, rfl⟩, ← hpk]
    by_cases hkey : ptr.primaryKey = k
    · rw [if_pos hkey, meets_pure, List.find?_cons_of_pos (by simpa using hkey)]
    · rw [if_neg hkey, ih fun ptr' hptr' => hptrs ptr' (List.mem_cons_of_mem _ hptr'),
        List.find?_cons_of_neg (by simpa using hkey)]

lemma mem_of_find?_reverse {q : ItemPtr → Bool} {ptr : ItemPtr}
    (h : s.itemsVector.reverse.find? q = some ptr) : ptr ∈ s.itemsVector ∧ q ptr = true :=
  ⟨List.mem_reverse.mp (List.mem_of_find?_eq_some h), List.find?_some h⟩

lemma not_of_find?_reverse {q : ItemPtr → Bool} (h : s.itemsVector.reverse.find? q = none) :
    ∀ ptr ∈ s.itemsVector, ¬ q ptr = true := by
  intro ptr hptr
  exact List.find?_eq_none.mp h ptr (List.mem_reverse.mpr hptr)

/-- A new item behind the others. -/
def pushed (s : State C T) (itm : Item T) (pk : ℕ) : State C T :=
  { s with
    items := Function.update s.items s.allocated itm
    allocated := s.allocated + 1
    itemsVector := s.itemsVector ++ [ItemPtr.mk s.allocated pk itm.primaryItr] }

lemma meets_emplaceBack {E : String → State C T → Prop} {Q : ℕ → State C T → Prop} {itm : Item T} :
    Meets (m.emplaceBack itm) s Q E ↔ Q s.allocated (pushed s itm (m.primaryKey itm.obj)) := Iff.rfl

section Pushed

variable {itm : Item T} {pk : ℕ}

lemma pushed_items_of_ne (h : p ≠ s.allocated) : (pushed s itm pk).items p = s.items p :=
  Function.update_of_ne h _ _

lemma pushed_items_self : (pushed s itm pk).items s.allocated = itm := Function.update_self _ _ _

lemma mem_pushed {ptr : ItemPtr} : ptr ∈ (pushed s itm pk).itemsVector ↔
    ptr ∈ s.itemsVector ∨ ptr = ItemPtr.mk s.allocated pk itm.primaryItr := by
  unfold pushed
  rw [List.mem_append, List.mem_singleton]

lemma live_pushed : (pushed s itm pk).Live s.allocated :=
  ⟨_, mem_pushed.mpr (.inr rfl), rfl⟩

/-- A new item of a row that is not cached joins the cache. -/
lemma CacheOk.pushed (h : CacheOk m d s) (hitem : ItemOk m d s.chain s.self itm)
    (hnew : ∀ ptr ∈ s.itemsVector, ptr.primaryKey ≠ m.primaryKey itm.obj) :
    CacheOk m d (pushed s itm (m.primaryKey itm.obj)) := by
  have hold : ∀ ptr ∈ s.itemsVector,
      (Contracts.pushed s itm (m.primaryKey itm.obj)).items ptr.item = s.items ptr.item :=
    fun ptr hptr => pushed_items_of_ne (h.allocated ptr hptr).ne
  have hself : (Contracts.pushed s itm (m.primaryKey itm.obj)).items s.allocated = itm :=
    pushed_items_self
  constructor
  case allocated =>
    intro ptr hptr
    rcases mem_pushed.mp hptr with hptr | rfl
    · exact Nat.lt_succ_of_lt (h.allocated ptr hptr)
    · exact Nat.lt_succ_self _
  case nodup =>
    unfold Contracts.pushed
    rw [List.map_append]
    refine List.Nodup.append h.nodup (List.nodup_singleton _) ?_
    rw [List.map_singleton, List.disjoint_singleton]
    intro hmem
    obtain ⟨ptr, hptr, heq⟩ := List.mem_map.mp hmem
    exact absurd heq (h.allocated ptr hptr).ne
  case primaryKey =>
    intro ptr hptr
    rcases mem_pushed.mp hptr with hptr | rfl
    · rw [hold ptr hptr]
      exact h.primaryKey ptr hptr
    · rw [hself]
  case primaryItr =>
    intro ptr hptr
    rcases mem_pushed.mp hptr with hptr | rfl
    · rw [hold ptr hptr]
      exact h.primaryItr ptr hptr
    · rw [hself]
  case item =>
    intro ptr hptr
    rcases mem_pushed.mp hptr with hptr | rfl
    · rw [hold ptr hptr]
      exact h.item ptr hptr
    · rw [hself]
      exact hitem
  case unique =>
    intro ptr hptr ptr' hptr' hkey
    rcases mem_pushed.mp hptr with hptr | rfl <;> rcases mem_pushed.mp hptr' with hptr' | rfl
    · exact h.unique ptr hptr ptr' hptr' hkey
    · exact absurd hkey (hnew ptr hptr)
    · exact absurd hkey.symm (hnew ptr' hptr')
    · rfl

/-- With a new item every iterator stays where it is. -/
lemma keeps_pushed (h : CacheOk m d s) : Keeps s (Contracts.pushed s itm pk) where
  chain := rfl
  self := rfl
  nextPrimaryKey := rfl
  readDiscarded := rfl
  live := by
    rintro p ⟨ptr, hptr, rfl⟩
    exact ⟨ptr, mem_pushed.mpr (.inl hptr), rfl⟩
  items := by
    rintro p ⟨ptr, hptr, rfl⟩
    rw [pushed_items_of_ne (h.allocated ptr hptr).ne]

end Pushed

/-- A row is loaded from its handle, if it is not cached. -/
lemma loadObject_spec (h : Inv m d s) (he : e ∈ d.rows s.chain) :
    Returns (m.loadObjectByPrimaryIterator e.itr) s fun p s' =>
      Steady m d s s' ∧ s'.Live p ∧ Holds m e (s'.items p).obj := by
  unfold loadObjectByPrimaryIterator Returns
  rw [meets_bind, meets_get]
  cases hfind : s.itemsVector.reverse.find? fun ptr => decide (ptr.primaryItr = e.itr) with
  | some ptr =>
    obtain ⟨hptr, hitr⟩ := mem_of_find?_reverse hfind
    rw [decide_eq_true_iff] at hitr
    have hlive : s.Live ptr.item := ⟨ptr, hptr, rfl⟩
    obtain ⟨e', he', hholds, hitr'⟩ := h.cache.row hlive
    -- one handle, one row
    have heq : e' = e := by
      apply d.rows_itr_inj s.chain e' he' e he
      rw [← hitr', ← h.cache.primaryItr ptr hptr, hitr]
    subst heq
    exact ⟨Steady.refl h, hlive, hholds⟩
  | none =>
    obtain ⟨obj, hholds, -⟩ := h.db.row he
    have hnew : ∀ ptr ∈ s.itemsVector, ptr.primaryKey ≠ m.primaryKey obj := by
      intro ptr hptr hkey
      obtain ⟨e', he', hholds', hitr⟩ := h.cache.row ⟨ptr, hptr, rfl⟩
      have hsame : e'.key = e.key := by
        rw [← hholds'.2, ← h.cache.primaryKey ptr hptr, hkey, hholds.2]
      rw [(d.rows_sorted s.chain).eq_of_key he' he hsame] at hitr
      refine not_of_find?_reverse hfind ptr hptr ?_
      rw [decide_eq_true_iff, h.cache.primaryItr ptr hptr, hitr]
    have hitem : ItemOk m d s.chain s.self ⟨obj, s.self, e.itr, fun _ => -1⟩ :=
      ⟨rfl, ⟨e, he, hholds, rfl⟩, fun _ _ => .inl rfl⟩
    simp only [d.get_row he, hholds.1]
    rw [meets_emplaceBack]
    refine ⟨⟨keeps_pushed h.cache, h.db, h.cache.pushed hitem hnew⟩, live_pushed, ?_⟩
    rw [pushed_items_self]
    exact hholds

/-! ## By key -/

/-- The search by key over the whole cache: an item of the row, or no item of that key. -/
lemma findItem_spec (h : Inv m d s) : Returns (m.findItem k s.itemsVector.reverse) s fun o s' =>
    s' = s ∧ match o with
      | some ptr => ptr ∈ s.itemsVector ∧ ∃ e, lookup (d.rows s.chain) k = some e ∧
          Holds m e (s.items ptr.item).obj
      | none => ∀ ptr ∈ s.itemsVector, ptr.primaryKey ≠ k := by
  unfold Returns
  rw [meets_findItem h.cache fun ptr hptr => List.mem_reverse.mp hptr]
  refine ⟨rfl, ?_⟩
  cases hfind : s.itemsVector.reverse.find? fun ptr => decide (ptr.primaryKey = k) with
  | some ptr =>
    obtain ⟨hptr, hkey⟩ := mem_of_find?_reverse hfind
    rw [decide_eq_true_iff] at hkey
    obtain ⟨e, he, hholds, -⟩ := h.cache.row ⟨ptr, hptr, rfl⟩
    have hek : e.key = k := by rw [← hholds.2, ← h.cache.primaryKey ptr hptr, hkey]
    exact ⟨hptr, e, hek ▸ lookup_eq_some (d.rows_sorted s.chain) he, hholds⟩
  | none =>
    intro ptr hptr hkey
    exact not_of_find?_reverse hfind ptr hptr (decide_eq_true hkey)

lemma mem_of_lookup (hfind : lookup (d.rows s.chain) k = some e) :
    e ∈ d.rows s.chain ∧ e.key = k := by
  have hkey := List.find?_some hfind
  exact ⟨List.mem_of_find?_eq_some hfind, of_decide_eq_true hkey⟩

lemma iteratorTo_spec (h : Inv m d s) (hp : s.Live p) :
    Returns (iteratorTo p) s fun it s' => s' = s ∧ it = some p := by
  unfold iteratorTo Returns
  rw [meets_bind, meets_readItem hp, meets_bind, meets_get, meets_bind,
    meets_check_pos (h.cache.itemOk hp).idx, meets_pure]
  exact ⟨rfl, rfl⟩

/-- A row that is not cached is loaded. -/
lemma loadIterator_spec (h : Inv m d s) (he : e ∈ d.rows s.chain) :
    Returns (do iteratorTo (← m.loadObjectByPrimaryIterator e.itr)) s fun it s' =>
      Steady m d s s' ∧ PointsTo m d s' it (some e) := by
  refine (loadObject_spec h he).bind ?_
  rintro p s' ⟨hsteady, hlive, hholds⟩
  refine (iteratorTo_spec hsteady.inv hlive).mono ?_
  rintro it s'' ⟨heq, rfl⟩
  subst s''
  exact ⟨hsteady, hsteady.chain ▸ he, hlive, hholds⟩

lemma find_spec (h : Inv m d s) (k : ℕ) : Returns (m.find k) s fun it s' =>
    Steady m d s s' ∧ PointsTo m d s' it (lookup (d.rows s.chain) k) := by
  unfold MultiIndex.find Returns
  rw [meets_bind, meets_get]
  refine (findItem_spec h).bind ?_
  rintro o s' ⟨heq, ho⟩
  subst s'
  cases o with
  | some ptr =>
    obtain ⟨hptr, e, hfind, hholds⟩ := ho
    refine (iteratorTo_spec h ⟨ptr, hptr, rfl⟩).mono ?_
    rintro it s' ⟨heq, rfl⟩
    subst s'
    rw [hfind]
    exact ⟨Steady.refl h, (mem_of_lookup hfind).1, ⟨ptr, hptr, rfl⟩, hholds⟩
  | none =>
    have hitr := d.find_row s.chain k
    rw [meets_bind, meets_get]
    cases hfind : lookup (d.rows s.chain) k with
    | none =>
      rw [hfind] at hitr
      have hneg : m.db.findI64 s.chain k < 0 := hitr
      rw [if_pos hneg, meets_pure]
      exact ⟨Steady.refl h, trivial⟩
    | some e =>
      have he := (mem_of_lookup hfind).1
      rw [hfind] at hitr
      have hnonneg : ¬ m.db.findI64 s.chain k < 0 := by
        rw [hitr]
        exact not_lt.mpr (d.rows_itr s.chain e he)
      rw [if_neg hnonneg, hitr]
      exact loadIterator_spec h he

lemma requireFind_spec (h : Inv m d s) (k : ℕ) (errorMsg : String) :
    Meets (m.requireFind k errorMsg) s
      (fun it s' => Steady m d s s' ∧
        ∃ e, lookup (d.rows s.chain) k = some e ∧ PointsTo m d s' it (some e))
      fun msg s' => s' = s ∧ msg = errorMsg ∧ lookup (d.rows s.chain) k = none := by
  unfold requireFind
  rw [meets_bind, meets_get]
  refine (findItem_spec h).bind ?_
  rintro o s' ⟨heq, ho⟩
  subst s'
  cases o with
  | some ptr =>
    obtain ⟨hptr, e, hfind, hholds⟩ := ho
    refine (iteratorTo_spec h ⟨ptr, hptr, rfl⟩).meets.mono ?_ fun _ _ hfalse => hfalse
    rintro it s' ⟨heq, rfl⟩
    subst s'
    exact ⟨Steady.refl h, e, hfind, (mem_of_lookup hfind).1, ⟨ptr, hptr, rfl⟩, hholds⟩
  | none =>
    have hitr := d.find_row s.chain k
    rw [meets_bind, meets_get]
    cases hfind : lookup (d.rows s.chain) k with
    | none =>
      rw [hfind] at hitr
      rw [meets_bind, meets_check_neg (not_le.mpr hitr)]
      exact ⟨rfl, rfl, rfl⟩
    | some e =>
      have he := (mem_of_lookup hfind).1
      rw [hfind] at hitr
      have hnonneg : m.db.findI64 s.chain k ≥ 0 := by
        rw [hitr]
        exact d.rows_itr s.chain e he
      rw [meets_bind, meets_check_pos hnonneg, hitr]
      refine (loadIterator_spec h he).meets.mono ?_ fun _ _ hfalse => hfalse
      rintro it s' ⟨hsteady, hpoints⟩
      exact ⟨hsteady, e, rfl, hpoints⟩

/-- Behind a lookup that gave an iterator: an end iterator aborts, another gives its item. -/
lemma getObj_spec (h : Inv m d s) (k : ℕ) (errorMsg : String) :
    Meets (m.getObj k errorMsg) s
      (fun p s' => Steady m d s s' ∧
        ∃ e, lookup (d.rows s.chain) k = some e ∧ PointsTo m d s' (some p) (some e))
      fun msg s' => Steady m d s s' ∧ msg = errorMsg ∧ lookup (d.rows s.chain) k = none := by
  unfold MultiIndex.getObj
  refine (find_spec h k).bind ?_
  rintro it s' ⟨hsteady, hpoints⟩
  cases it with
  | none =>
    rw [meets_bind, meets_check_neg (by simp)]
    cases hfind : lookup (d.rows s.chain) k with
    | none => exact ⟨hsteady, rfl, rfl⟩
    | some e =>
      rw [hfind] at hpoints
      exact hpoints.elim
  | some p =>
    rw [meets_bind, meets_check_pos (by simp), meets_deref]
    cases hfind : lookup (d.rows s.chain) k with
    | none =>
      rw [hfind] at hpoints
      exact hpoints.elim
    | some e => exact ⟨hsteady, e, rfl, hfind ▸ hpoints⟩

/-! ## By order -/

/-- From a handle to an iterator, the end where the handle is negative. -/
lemma loadHandle_spec (h : Inv m d s) {itr : ℤ} {o : Option (Entry ℕ Row)} (hitr : IsHandle itr o)
    (ho : ∀ e, o = some e → e ∈ d.rows s.chain) :
    Returns (if itr < 0 then pure none else some <$> m.loadObjectByPrimaryIterator itr) s
      fun it s' => Steady m d s s' ∧ PointsTo m d s' it o := by
  unfold Returns
  cases o with
  | none =>
    have hneg : itr < 0 := hitr
    rw [if_pos hneg, meets_pure]
    exact ⟨Steady.refl h, trivial⟩
  | some e =>
    have he := ho e rfl
    have hnonneg : ¬ itr < 0 := by
      rw [hitr]
      exact not_lt.mpr (d.rows_itr s.chain e he)
    rw [if_neg hnonneg, meets_map, hitr]
    refine (loadObject_spec h he).mono ?_
    rintro p s' ⟨hsteady, hlive, hholds⟩
    exact ⟨hsteady, hsteady.chain ▸ he, hlive, hholds⟩

lemma lowerBound_spec (h : Inv m d s) (k : ℕ) : Returns (m.lowerBound k) s fun it s' =>
    Steady m d s s' ∧ PointsTo m d s' it (OrderedTable.lowerBound (d.rows s.chain) k) := by
  unfold MultiIndex.lowerBound Returns
  rw [meets_bind, meets_get]
  exact loadHandle_spec h (d.lowerbound_row s.chain k) fun e he => List.mem_of_find?_eq_some he

lemma upperBound_spec (h : Inv m d s) (k : ℕ) : Returns (m.upperBound k) s fun it s' =>
    Steady m d s s' ∧ PointsTo m d s' it (OrderedTable.upperBound (d.rows s.chain) k) := by
  unfold MultiIndex.upperBound Returns
  rw [meets_bind, meets_get]
  exact loadHandle_spec h (d.upperbound_row s.chain k) fun e he => List.mem_of_find?_eq_some he

lemma cbegin_spec (h : Inv m d s) : Returns m.cbegin s fun it s' =>
    Steady m d s s' ∧ PointsTo m d s' it (d.rows s.chain).head? := by
  rw [← lowerBound_of_le fun e _ => Nat.zero_le e.key]
  exact lowerBound_spec h 0

lemma IsHandleOf.isHandle {κ' β : Type} {r : ℤ × ℕ} {primary : κ' → ℕ} {o : Option (Entry κ' β)}
    (h : IsHandleOf r primary o) : IsHandle r.1 o := by
  cases o with
  | none => exact h
  | some e => exact h.1

lemma next_spec (h : Inv m d s) (hp : PointsTo m d s (some p) (some e)) :
    Returns (m.next (some p)) s fun it s' =>
      Steady m d s s' ∧ PointsTo m d s' it (OrderedTable.upperBound (d.rows s.chain) e.key) := by
  obtain ⟨he, hlive, hholds⟩ := hp
  unfold MultiIndex.next Returns
  rw [meets_bind, meets_readItem hlive, meets_bind, meets_get, h.cache.row_eq hlive he hholds]
  exact loadHandle_spec h (d.next_row he).isHandle fun e' he' => List.mem_of_find?_eq_some he'

/-- From the handle in front to an iterator, an abort where there is none. -/
lemma loadInFront_spec (h : Inv m d s) {itr : ℤ} {o : Option (Entry ℕ Row)} {message : String}
    (hitr : IsHandle itr o) (ho : ∀ e, o = some e → e ∈ d.rows s.chain) :
    Meets (do
        check (itr ≥ 0) message
        some <$> m.loadObjectByPrimaryIterator itr) s
      (fun it s' => Steady m d s s' ∧ ∃ e, o = some e ∧ PointsTo m d s' it (some e))
      fun _ s' => s' = s ∧ o = none := by
  cases o with
  | none =>
    rw [meets_bind, meets_check_neg (not_le.mpr hitr)]
    exact ⟨rfl, rfl⟩
  | some e =>
    have he := ho e rfl
    have hnonneg : itr ≥ 0 := by
      rw [hitr]
      exact d.rows_itr s.chain e he
    rw [meets_bind, meets_check_pos hnonneg, meets_map, hitr]
    refine (loadObject_spec h he).meets.mono ?_ fun _ _ hfalse => hfalse
    rintro p s' ⟨hsteady, hlive, hholds⟩
    exact ⟨hsteady, e, rfl, hsteady.chain ▸ he, hlive, hholds⟩

lemma previous_spec (h : Inv m d s) {it : Option ℕ} {o : Option (Entry ℕ Row)}
    (hp : PointsTo m d s it o) :
    Meets (m.previous it) s
      (fun it' s' => Steady m d s s' ∧
        ∃ e, inFront (d.rows s.chain) o = some e ∧ PointsTo m d s' it' (some e))
      fun _ s' => s' = s ∧ inFront (d.rows s.chain) o = none := by
  cases it with
  | none =>
    cases o with
    | some e => exact hp.elim
    | none =>
      unfold MultiIndex.previous
      rw [meets_bind, meets_get]
      by_cases hend : m.db.endI64 s.chain ≠ -1
      · rw [meets_bind, meets_check_pos hend, meets_bind, meets_get]
        exact loadInFront_spec h (d.previous_end s.chain hend).isHandle
          fun e he => List.mem_of_getLast? he
      · rw [meets_bind, meets_check_neg hend]
        have hempty : d.rows s.chain = [] := by
          by_contra hne
          exact hend (d.end_row s.chain hne)
        rw [hempty]
        exact ⟨rfl, rfl⟩
  | some p =>
    cases o with
    | none => exact hp.elim
    | some e =>
      obtain ⟨he, hlive, hholds⟩ := hp
      unfold MultiIndex.previous
      rw [meets_bind, meets_readItem hlive, meets_bind, meets_get,
        h.cache.row_eq hlive he hholds]
      exact loadInFront_spec h (d.previous_row he).isHandle fun e' he' => mem_of_inFront he'

end UosioCdt.Contracts
