import UosioCdt.Contracts.LookupTheorems

/-!
# Lookups in a secondary index

Every lookup returns, keeps what is cached, and finds the entry that the ordered index has. A handle
that a lookup writes into an item is that of the item's own entry.
-/

namespace UosioCdt.Contracts

open MultiIndex OrderedTable Aborting

variable {C T κ ρ : Type} [LinearOrder ρ]
variable {m : MultiIndex C T κ ρ} {d : OrderedMaps m.db m.rank}
variable {s : State C T} {p i : ℕ} {x : Entry (IndexKey ρ) (Reference κ)}

/-! ## Writing into an item -/

/-- The memory after an item was written. -/
def written (s : State C T) (p : ℕ) (it : Item T) : State C T :=
  { s with items := Function.update s.items p it }

lemma written_items_self {it : Item T} : (written s p it).items p = it := Function.update_self _ _ _

lemma written_items_of_ne {it : Item T} {q : ℕ} (h : q ≠ p) : (written s p it).items q = s.items q :=
  Function.update_of_ne h _ _

/-- A live item is overwritten with one of the same key, and the database may change at that key. -/
lemma CacheOk.rewritten {it : Item T} {c' : C} {next : ℕ} (h : CacheOk m d s) (hp : s.Live p)
    (hkey : m.primaryKey it.obj = m.primaryKey (s.items p).obj)
    (hitr : it.primaryItr = (s.items p).primaryItr) (hitem : ItemOk m d c' s.self it)
    (hsame : ∀ k, k ≠ m.primaryKey (s.items p).obj → SameAt d s.chain c' k) :
    CacheOk m d { written s p it with chain := c', nextPrimaryKey := next } := by
  have hcases : ∀ ptr : ItemPtr, (ptr.item = p ∧ (written s p it).items ptr.item = it) ∨
      (ptr.item ≠ p ∧ (written s p it).items ptr.item = s.items ptr.item) := by
    intro ptr
    by_cases heq : ptr.item = p
    · exact .inl ⟨heq, by rw [heq, written_items_self]⟩
    · exact .inr ⟨heq, written_items_of_ne heq⟩
  constructor
  case allocated => exact h.allocated
  case nodup => exact h.nodup
  case primaryKey =>
    intro ptr hptr
    rcases hcases ptr with ⟨heq, hit⟩ | ⟨-, hit⟩ <;> simp only [hit]
    · rw [hkey, ← heq]
      exact h.primaryKey ptr hptr
    · exact h.primaryKey ptr hptr
  case primaryItr =>
    intro ptr hptr
    rcases hcases ptr with ⟨heq, hit⟩ | ⟨-, hit⟩ <;> simp only [hit]
    · rw [hitr, ← heq]
      exact h.primaryItr ptr hptr
    · exact h.primaryItr ptr hptr
  case item =>
    intro ptr hptr
    rcases hcases ptr with ⟨-, hit⟩ | ⟨hne, hit⟩ <;> simp only [hit]
    · exact hitem
    · have hlive : s.Live ptr.item := ⟨ptr, hptr, rfl⟩
      exact (hsame _ fun heq => hne (h.live_unique hlive hp heq)).itemOk (h.itemOk hlive)
  case unique => exact h.unique

/-- A handle is the item's own entry's. -/
lemma ItemOk.setIter {c : C} {owner : ℕ} {it : Item T} (h : ItemOk m d c owner it)
    (hx : x ∈ d.entries c i) (hof : IsEntryOf m i it.obj x) :
    ItemOk m d c owner { it with iters := Function.update it.iters i x.itr } := by
  refine ⟨h.idx, h.row, fun j hj => ?_⟩
  by_cases hji : j = i
  · subst hji
    refine .inr ⟨x, hx, hof, ?_⟩
    show x.itr = Function.update it.iters j x.itr j
    rw [Function.update_self]
  · have hsame : Function.update it.iters i x.itr j = it.iters j := Function.update_of_ne hji _ _
    simp only [hsame]
    exact h.iters j hj

lemma setIter_spec (h : Inv m d s) (hp : s.Live p) (hx : x ∈ d.entries s.chain i)
    (hof : IsEntryOf m i (s.items p).obj x) :
    Returns (Index.setIter i p x.itr) s fun _ s' =>
      Steady m d s s' ∧ (s'.items p).iters i = x.itr := by
  unfold Index.setIter Returns
  rw [meets_writeItem]
  have hitem := (h.cache.itemOk hp).setIter hx hof
  refine ⟨⟨⟨rfl, rfl, rfl, rfl, fun q hq => hq, fun q _ => ?_⟩, h.db,
    h.cache.rewritten hp rfl rfl hitem fun _ _ => SameAt.refl⟩, ?_⟩
  · by_cases hqp : q = p
    · rw [hqp]
      show (Function.update s.items p _ p).obj = _
      rw [Function.update_self]
    · show (Function.update s.items p _ q).obj = _
      rw [Function.update_of_ne hqp]
  · show (Function.update s.items p _ p).iters i = _
    rw [Function.update_self]
    exact Function.update_self _ _ _

lemma IsEntryOf.eq {c : C} {obj : T} {y} (hx : x ∈ d.entries c i) (hy : y ∈ d.entries c i)
    (hofx : IsEntryOf m i obj x) (hofy : IsEntryOf m i obj y) : x = y :=
  (d.entries_sorted c i).eq_of_key hx hy (hofx.1.trans hofy.1.symm)

/-- A live item has an entry in every index, and that is what its handle leads to. -/
lemma ensureIter_spec (h : Inv m d s) (hi : i < m.indices) (hp : s.Live p) :
    Returns (Index.ensureIter m i p) s fun _ s' => Steady m d s s' ∧
      ∃ x ∈ d.entries s.chain i, IsEntryOf m i (s.items p).obj x ∧ (s'.items p).iters i = x.itr := by
  have hitem := h.cache.itemOk hp
  unfold Index.ensureIter Returns
  rw [meets_bind, meets_readItem hp]
  by_cases hunset : (s.items p).iters i = -1
  · rw [if_pos hunset]
    obtain ⟨e, he, hholds, -⟩ := hitem.row
    obtain ⟨x, hx, hof⟩ := h.db.indexed he hholds hi
    rw [meets_bind, meets_get]
    show Meets (Index.setIter i p (m.db.idxFindPrimary s.chain i (m.primaryKey (s.items p).obj))) s
      _ _
    rw [hholds.2, hx.findPrimary]
    refine (setIter_spec h hp hx.mem hof).mono ?_
    rintro _ s' ⟨hsteady, hiter⟩
    exact ⟨hsteady, x, hx.mem, hof, hiter⟩
  · rw [if_neg hunset, meets_pure]
    obtain ⟨x, hx, hof, hiter⟩ := (hitem.iters i hi).resolve_left hunset
    exact ⟨Steady.refl h, x, hx, hof, hiter.symm⟩

/-- From the handle of an entry to an iterator there. -/
lemma itemOf_spec (h : Inv m d s) (hi : i < m.indices) (hx : x ∈ d.entries s.chain i) {r : ℤ × ℕ}
    (hitr : r.1 = x.itr) (hkey : r.2 = x.key.primary) :
    Returns (Index.itemOf m i r) s fun it s' =>
      Steady m d s s' ∧ PointsToEntry m d i s' it (some x) := by
  obtain ⟨e, obj, he, hholds, hek, hof, -⟩ := h.db.owned hi hx
  unfold Index.itemOf Returns
  rw [hitr, hkey, ← hek]
  refine (find_spec h e.key).bind ?_
  rw [lookup_eq_some (d.rows_sorted s.chain) he]
  rintro it s' ⟨hsteady, hpoints⟩
  cases it with
  | none => exact hpoints.elim
  | some p =>
    obtain ⟨-, hlive, hholds'⟩ := hpoints
    have hobj := hholds'.eq hholds
    rw [meets_bind, meets_deref]
    have hx' : x ∈ d.entries s'.chain i := hsteady.chain ▸ hx
    refine (setIter_spec hsteady.inv hlive hx' (hobj.symm ▸ hof)).bind ?_
    rintro _ s'' ⟨hsteady', -⟩
    rw [meets_pure]
    refine ⟨hsteady.trans hsteady', hsteady'.chain ▸ hx', hsteady'.live p hlive, ?_⟩
    rwa [hsteady'.items p hlive, hobj]

/-- From a handle to an iterator, the end where the handle is negative. -/
lemma itemOfHandle_spec (h : Inv m d s) (hi : i < m.indices) {r : ℤ × ℕ}
    {o : Option (Entry (IndexKey ρ) (Reference κ))} (hr : IsHandleOf r IndexKey.primary o)
    (ho : ∀ x, o = some x → x ∈ d.entries s.chain i) :
    Returns (if r.1 < 0 then pure none else Index.itemOf m i r) s fun it s' =>
      Steady m d s s' ∧ PointsToEntry m d i s' it o := by
  unfold Returns
  cases o with
  | none =>
    have hneg : r.1 < 0 := hr
    rw [if_pos hneg, meets_pure]
    exact ⟨Steady.refl h, trivial⟩
  | some x =>
    have hx := ho x rfl
    have hnonneg : ¬ r.1 < 0 := by
      rw [hr.1]
      exact not_lt.mpr (d.entries_itr s.chain i x hx)
    rw [if_neg hnonneg]
    exact itemOf_spec h hi hx hr.1 hr.2

/-! ## By order -/

lemma indexIteratorTo_spec (h : Inv m d s) (hi : i < m.indices) (hp : s.Live p) :
    Returns (Index.iteratorTo m i p) s fun it s' => Steady m d s s' ∧
      ∃ x, it = some p ∧ PointsToEntry m d i s' it (some x) := by
  unfold Index.iteratorTo Returns
  rw [meets_bind, meets_readItem hp, meets_bind, meets_get, meets_bind,
    meets_check_pos (h.cache.itemOk hp).idx]
  refine (ensureIter_spec h hi hp).bind ?_
  rintro _ s' ⟨hsteady, x, hx, hof, -⟩
  rw [meets_pure]
  refine ⟨hsteady, x, rfl, hsteady.chain ▸ hx, hsteady.live p hp, ?_⟩
  rwa [hsteady.items p hp]

lemma indexNext_spec (h : Inv m d s) (hi : i < m.indices)
    (hp : PointsToEntry m d i s (some p) (some x)) :
    Returns (Index.next m i (some p)) s fun it s' => Steady m d s s' ∧
      PointsToEntry m d i s' it (OrderedTable.upperBound (d.entries s.chain i) x.key) := by
  obtain ⟨hx, hlive, hof⟩ := hp
  unfold Index.next
  refine (ensureIter_spec h hi hlive).bind ?_
  rintro _ s' ⟨hsteady, y, hy, hofy, hiter⟩
  have heq := IsEntryOf.eq hy hx hofy hof
  subst heq
  rw [meets_bind, meets_readItem (hsteady.live p hlive), meets_bind, meets_get, hiter,
    hsteady.chain]
  refine (itemOfHandle_spec hsteady.inv hi (d.idx_next hy) fun z hz => ?_).mono ?_
  · rw [hsteady.chain]
    exact List.mem_of_find?_eq_some hz
  · rintro it s'' ⟨hsteady', hpoints⟩
    exact ⟨hsteady.trans hsteady', hpoints⟩

/-- From the handle in front to an iterator, an abort where there is none. -/
lemma itemOfInFront_spec (h : Inv m d s) (hi : i < m.indices) {r : ℤ × ℕ}
    {o : Option (Entry (IndexKey ρ) (Reference κ))} {message : String}
    (hr : IsHandleOf r IndexKey.primary o) (ho : ∀ x, o = some x → x ∈ d.entries s.chain i) :
    Meets (do
        check (r.1 ≥ 0) message
        Index.itemOf m i r) s
      (fun it s' => Steady m d s s' ∧ ∃ x, o = some x ∧ PointsToEntry m d i s' it (some x))
      fun _ s' => s' = s ∧ o = none := by
  cases o with
  | none =>
    rw [meets_bind, meets_check_neg (not_le.mpr hr)]
    exact ⟨rfl, rfl⟩
  | some x =>
    have hx := ho x rfl
    have hnonneg : r.1 ≥ 0 := by
      rw [hr.1]
      exact d.entries_itr s.chain i x hx
    rw [meets_bind, meets_check_pos hnonneg]
    refine (itemOf_spec h hi hx hr.1 hr.2).meets.mono ?_ fun _ _ hfalse => hfalse
    rintro it s' ⟨hsteady, hpoints⟩
    exact ⟨hsteady, x, rfl, hpoints⟩

lemma indexPrevious_spec (h : Inv m d s) (hi : i < m.indices) {it : Option ℕ}
    {o : Option (Entry (IndexKey ρ) (Reference κ))} (hp : PointsToEntry m d i s it o) :
    Meets (Index.previous m i it) s
      (fun it' s' => Steady m d s s' ∧
        ∃ x, inFront (d.entries s.chain i) o = some x ∧ PointsToEntry m d i s' it' (some x))
      fun _ s' => Steady m d s s' ∧ inFront (d.entries s.chain i) o = none := by
  cases it with
  | none =>
    cases o with
    | some x => exact hp.elim
    | none =>
      unfold Index.previous
      rw [meets_bind, meets_get]
      by_cases hend : m.db.idxEnd s.chain i ≠ -1
      · rw [meets_bind, meets_check_pos hend, meets_bind, meets_get]
        refine (itemOfInFront_spec h hi (d.idx_previous_end s.chain i hend)
          fun x hx => List.mem_of_getLast? hx).mono (fun _ _ hq => hq) ?_
        rintro _ s' ⟨heq, hnone⟩
        subst s'
        exact ⟨Steady.refl h, hnone⟩
      · rw [meets_bind, meets_check_neg hend]
        have hempty : d.entries s.chain i = [] := by
          by_contra hne
          exact hend (d.idx_end s.chain i hne)
        rw [hempty]
        exact ⟨Steady.refl h, rfl⟩
  | some p =>
    cases o with
    | none => exact hp.elim
    | some x =>
      obtain ⟨hx, hlive, hof⟩ := hp
      unfold Index.previous
      refine (ensureIter_spec h hi hlive).bind ?_
      rintro _ s' ⟨hsteady, y, hy, hofy, hiter⟩
      have heq := IsEntryOf.eq hy hx hofy hof
      subst heq
      rw [meets_bind, meets_readItem (hsteady.live p hlive), meets_bind, meets_get, hiter,
        hsteady.chain]
      refine (itemOfInFront_spec hsteady.inv hi (d.idx_previous hy) fun z hz => ?_).mono ?_ ?_
      · rw [hsteady.chain]
        exact mem_of_inFront (o := some y) hz
      · rintro it s'' ⟨hsteady', hpoints⟩
        exact ⟨hsteady.trans hsteady', hpoints⟩
      · rintro _ s'' ⟨heq, hnone⟩
        subst s''
        exact ⟨hsteady, hnone⟩

/-! ## By secondary key -/

lemma indexLowerBound_spec (h : Inv m d s) (hi : i < m.indices) (secondary : κ) :
    Returns (Index.lowerBound m i secondary) s fun it s' => Steady m d s s' ∧
      PointsToEntry m d i s' it
        ((d.entries s.chain i).find? fun x => m.rank i secondary ≤ x.key.rank) := by
  unfold Index.lowerBound Returns
  rw [meets_bind, meets_get]
  exact itemOfHandle_spec h hi (d.idx_lowerbound s.chain i secondary)
    fun x hx => List.mem_of_find?_eq_some hx

lemma indexUpperBound_spec (h : Inv m d s) (hi : i < m.indices) (secondary : κ) :
    Returns (Index.upperBound m i secondary) s fun it s' => Steady m d s s' ∧
      PointsToEntry m d i s' it
        ((d.entries s.chain i).find? fun x => m.rank i secondary < x.key.rank) := by
  unfold Index.upperBound Returns
  rw [meets_bind, meets_get]
  exact itemOfHandle_spec h hi (d.idx_upperbound s.chain i secondary)
    fun x hx => List.mem_of_find?_eq_some hx

/-- No key is below the lowest one. -/
lemma indexCbegin_spec (h : Inv m d s) (hi : i < m.indices) :
    Returns (Index.cbegin m i) s fun it s' => Steady m d s s' ∧
      PointsToEntry m d i s' it (d.entries s.chain i).head? := by
  have hhead : ((d.entries s.chain i).find? fun x => m.rank i (m.trueLowest i) ≤ x.key.rank) =
      (d.entries s.chain i).head? := by
    cases hentries : d.entries s.chain i with
    | nil => rfl
    | cons x xs =>
      obtain ⟨-, obj, -, -, -, hof, -⟩ := h.db.owned hi (hentries ▸ List.mem_cons_self : x ∈ _)
      have hle : m.rank i (m.trueLowest i) ≤ x.key.rank := by
        rw [hof.1, IndexKey.rank_mk]
        exact m.trueLowest_le i _
      rw [List.find?_cons_of_pos (by simpa using hle)]
      rfl
  rw [← hhead]
  exact indexLowerBound_spec h hi (m.trueLowest i)

/-- The first entry with a key, if the lower bound has it. -/
def firstWith (d : OrderedMaps m.db m.rank) (c : C) (i : ℕ) (secondary : κ) :
    Option (Entry (IndexKey ρ) (Reference κ)) :=
  ((d.entries c i).find? fun x => m.rank i secondary ≤ x.key.rank).filter
    fun x => m.rank i secondary = x.key.rank

/-- The `==` of the key type on an item compares with its entry. -/
lemma IsEntryOf.equal {obj : T} (hof : IsEntryOf m i obj x) (secondary : κ) :
    m.equal i secondary (m.extractSecondaryKey i obj) = true ↔
      m.rank i secondary = x.key.rank := by
  rw [m.equal_iff, hof.1, IndexKey.rank_mk]

lemma indexFind_spec (h : Inv m d s) (hi : i < m.indices) (secondary : κ) :
    Returns (Index.find m i secondary) s fun it s' => Steady m d s s' ∧
      PointsToEntry m d i s' it (firstWith d s.chain i secondary) := by
  unfold Index.find firstWith
  refine (indexLowerBound_spec h hi secondary).bind ?_
  rintro it s' ⟨hsteady, hpoints⟩
  cases hfind : (d.entries s.chain i).find? fun x => decide (m.rank i secondary ≤ x.key.rank) with
  | none =>
    rw [hfind] at hpoints
    cases it with
    | none => exact ⟨hsteady, trivial⟩
    | some p => exact hpoints.elim
  | some x =>
    rw [hfind] at hpoints
    cases it with
    | none => exact hpoints.elim
    | some p =>
      obtain ⟨hx, hlive, hof⟩ := hpoints
      rw [meets_bind, meets_readItem hlive]
      by_cases hequal : m.rank i secondary = x.key.rank
      · rw [if_pos ((hof.equal secondary).mpr hequal), meets_pure,
          Option.filter_some_pos (by simpa using hequal)]
        exact ⟨hsteady, hx, hlive, hof⟩
      · rw [if_neg (mt (hof.equal secondary).mp hequal), meets_pure,
          Option.filter_some_neg (by simpa using hequal)]
        exact ⟨hsteady, trivial⟩

lemma indexRequireFind_spec (h : Inv m d s) (hi : i < m.indices) (secondary : κ)
    (errorMsg : String) :
    Meets (Index.requireFind m i secondary errorMsg) s
      (fun it s' => Steady m d s s' ∧
        ∃ x, firstWith d s.chain i secondary = some x ∧ PointsToEntry m d i s' it (some x))
      fun msg s' => Steady m d s s' ∧ msg = errorMsg ∧
        firstWith d s.chain i secondary = none := by
  unfold Index.requireFind firstWith
  refine (indexLowerBound_spec h hi secondary).bind ?_
  rintro it s' ⟨hsteady, hpoints⟩
  cases hfind : (d.entries s.chain i).find? fun x => decide (m.rank i secondary ≤ x.key.rank) with
  | none =>
    rw [hfind] at hpoints
    cases it with
    | none =>
      rw [meets_bind, meets_check_neg (by simp)]
      exact ⟨hsteady, rfl, rfl⟩
    | some p => exact hpoints.elim
  | some x =>
    rw [hfind] at hpoints
    cases it with
    | none => exact hpoints.elim
    | some p =>
      obtain ⟨hx, hlive, hof⟩ := hpoints
      rw [meets_bind, meets_check_pos (by simp), meets_bind, meets_deref, meets_bind,
        meets_readItem hlive]
      by_cases hequal : m.rank i secondary = x.key.rank
      · rw [meets_bind, meets_check_pos ((hof.equal secondary).mpr hequal), meets_pure,
          Option.filter_some_pos (by simpa using hequal)]
        exact ⟨hsteady, x, rfl, hx, hlive, hof⟩
      · rw [meets_bind, meets_check_neg (mt (hof.equal secondary).mp hequal),
          Option.filter_some_neg (by simpa using hequal)]
        exact ⟨hsteady, rfl, rfl⟩

lemma indexGetObj_spec (h : Inv m d s) (hi : i < m.indices) (secondary : κ) (errorMsg : String) :
    Meets (Index.getObj m i secondary errorMsg) s
      (fun p s' => Steady m d s s' ∧
        ∃ x, firstWith d s.chain i secondary = some x ∧ PointsToEntry m d i s' (some p) (some x))
      fun msg s' => Steady m d s s' ∧ msg = errorMsg ∧
        firstWith d s.chain i secondary = none := by
  unfold Index.getObj
  refine (indexFind_spec h hi secondary).bind ?_
  rintro it s' ⟨hsteady, hpoints⟩
  cases hfirst : firstWith d s.chain i secondary with
  | none =>
    rw [hfirst] at hpoints
    cases it with
    | none =>
      rw [meets_bind, meets_check_neg (by simp)]
      exact ⟨hsteady, rfl, rfl⟩
    | some p => exact hpoints.elim
  | some x =>
    rw [hfirst] at hpoints
    cases it with
    | none => exact hpoints.elim
    | some p =>
      rw [meets_bind, meets_check_pos (by simp), meets_deref]
      exact ⟨hsteady, x, rfl, hpoints⟩

end UosioCdt.Contracts
