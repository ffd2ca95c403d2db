import UosioCdt.Contracts.Index
import UosioCdt.Lib.Aborting

/-!
# What holds of a table and of its cache

The database is looked at one primary key at a time: what the primary table has there and what each
index has there. A change at one key leaves every other key alone.
-/

namespace UosioCdt.Contracts

open OrderedTable

variable {C T κ ρ : Type} [LinearOrder ρ]

/-! ## One primary key of the database -/

section Slices

variable {db : Intrinsics C κ} {rank : ℕ → κ → ρ} (d : OrderedMaps db rank)

/-- What the primary table has at a key. -/
def RowAt (c : C) (pk : ℕ) (o : Option (Entry ℕ Row)) : Prop :=
  ∀ e, (e ∈ d.rows c ∧ e.key = pk) ↔ o = some e

/-- What an index has for a primary key. -/
def EntryAt (c : C) (i pk : ℕ) (o : Option (Entry (IndexKey ρ) (Reference κ))) : Prop :=
  ∀ x, (x ∈ d.entries c i ∧ x.key.primary = pk) ↔ o = some x

/-- Two databases have the same at a primary key. -/
structure SameAt (c c' : C) (pk : ℕ) : Prop where
  row : ∀ e, e.key = pk → (e ∈ d.rows c' ↔ e ∈ d.rows c)
  entry : ∀ i x, x.key.primary = pk → (x ∈ d.entries c' i ↔ x ∈ d.entries c i)

variable {d} {c c' c'' : C} {pk i payer : ℕ} {itr : ℤ} {data : List UInt8} {secondary : κ}
variable {e : Entry ℕ Row} {x : Entry (IndexKey ρ) (Reference κ)}

lemma SameAt.refl : SameAt d c c pk := ⟨fun _ _ => Iff.rfl, fun _ _ _ => Iff.rfl⟩

lemma SameAt.trans (h : SameAt d c c' pk) (h' : SameAt d c' c'' pk) : SameAt d c c'' pk where
  row e he := (h'.row e he).trans (h.row e he)
  entry i x hx := (h'.entry i x hx).trans (h.entry i x hx)

lemma SameAt.symm (h : SameAt d c c' pk) : SameAt d c' c pk :=
  ⟨fun e he => (h.row e he).symm, fun i x hx => (h.entry i x hx).symm⟩

lemma SameAt.rowAt {o} (h : SameAt d c c' pk) (hrow : RowAt d c pk o) : RowAt d c' pk o := by
  intro e
  rw [← hrow e]
  exact and_congr_left fun he => h.row e he

lemma SameAt.entryAt {o} (h : SameAt d c c' pk) (hentry : EntryAt d c i pk o) :
    EntryAt d c' i pk o := by
  intro x
  rw [← hentry x]
  exact and_congr_left fun hx => h.entry i x hx

lemma rowAt_of_mem (he : e ∈ d.rows c) : RowAt d c e.key (some e) := by
  intro e'
  constructor
  · rintro ⟨he', hkey⟩
    rw [(d.rows_sorted c).eq_of_key he he' hkey.symm]
  · intro heq
    cases heq
    exact ⟨he, rfl⟩

lemma RowAt.mem (h : RowAt d c pk (some e)) : e ∈ d.rows c := ((h e).mpr rfl).1

lemma RowAt.key (h : RowAt d c pk (some e)) : e.key = pk := ((h e).mpr rfl).2

lemma EntryAt.mem (h : EntryAt d c i pk (some x)) : x ∈ d.entries c i := ((h x).mpr rfl).1

lemma EntryAt.primary (h : EntryAt d c i pk (some x)) : x.key.primary = pk := ((h x).mpr rfl).2

lemma EntryAt.eq {y} (h : EntryAt d c i pk (some x)) (hy : y ∈ d.entries c i)
    (hkey : y.key.primary = pk) : y = x :=
  (Option.some.inj ((h y).mp ⟨hy, hkey⟩)).symm

lemma RowAt.eq {e'} (h : RowAt d c pk (some e)) (he' : e' ∈ d.rows c) (hkey : e'.key = pk) :
    e' = e :=
  (Option.some.inj ((h e').mp ⟨he', hkey⟩)).symm

lemma EntryAt.findPrimary (h : EntryAt d c i pk (some x)) : db.idxFindPrimary c i pk = x.itr := by
  rw [← h.primary]
  exact d.idx_find_primary h.mem fun y hy hkey => h.eq hy (hkey.trans h.primary)

/-! ## What the intrinsics change -/

/-- A call changed nothing but the row at one key. -/
structure RowChange (d : OrderedMaps db rank) (c c' : C) (pk : ℕ) : Prop where
  entries : d.entries c' = d.entries c
  rows : ∀ e, e.key ≠ pk → (e ∈ d.rows c' ↔ e ∈ d.rows c)

/-- A call changed nothing but the entry of one index at one primary key. -/
structure EntryChange (d : OrderedMaps db rank) (c c' : C) (i pk : ℕ) : Prop where
  rows : d.rows c' = d.rows c
  others : ∀ j, j ≠ i → d.entries c' j = d.entries c j
  entries : ∀ x, x.key.primary ≠ pk → (x ∈ d.entries c' i ↔ x ∈ d.entries c i)

lemma RowChange.sameAt {k : ℕ} (h : RowChange d c c' pk) (hk : k ≠ pk) : SameAt d c c' k where
  row e he := h.rows e (he ▸ hk)
  entry i x _ := by rw [h.entries]

lemma RowChange.entryAt {k : ℕ} {o} (h : RowChange d c c' pk) :
    EntryAt d c' i k o ↔ EntryAt d c i k o := by
  unfold EntryAt
  rw [h.entries]

lemma EntryChange.sameAt {k : ℕ} (h : EntryChange d c c' i pk) (hk : k ≠ pk) :
    SameAt d c c' k where
  row e _ := by rw [h.rows]
  entry j x hx := by
    by_cases hj : j = i
    · rw [hj]
      exact h.entries x (hx ▸ hk)
    · rw [h.others j hj]

lemma EntryChange.rowAt {k : ℕ} {o} (h : EntryChange d c c' i pk) :
    RowAt d c' k o ↔ RowAt d c k o := by
  unfold RowAt
  rw [h.rows]

lemma EntryChange.entryAt {j k : ℕ} {o} (h : EntryChange d c c' i pk) (hj : j ≠ i) :
    EntryAt d c' j k o ↔ EntryAt d c j k o := by
  unfold EntryAt
  rw [h.others j hj]

lemma store_spec (h : db.storeI64 c payer pk data = some (itr, c')) :
    RowAt d c pk none ∧ RowAt d c' pk (some ⟨pk, itr, ⟨data, payer⟩⟩) ∧ RowChange d c c' pk := by
  obtain ⟨hnew, hrows, hentries⟩ := d.store_some h
  refine ⟨fun e => ⟨fun he => absurd he.2 (hnew e he.1), fun he => by cases he⟩, fun e => ?_,
    hentries, fun e he => ?_⟩
  · rw [hrows, mem_put]
    constructor
    · rintro ⟨rfl | he, hkey⟩
      · rfl
      · exact absurd hkey (hnew e he)
    · intro he
      cases he
      exact ⟨.inl rfl, rfl⟩
  · rw [hrows, mem_put]
    refine ⟨fun h => h.resolve_left ?_, .inr⟩
    rintro rfl
    exact he rfl

lemma update_spec (he : RowAt d c pk (some e)) (h : db.updateI64 c e.itr payer data = some c') :
    RowAt d c' pk (some { e with val := ⟨data, billed payer e.val.payer⟩ }) ∧
      RowChange d c c' pk := by
  obtain ⟨hrows, hentries⟩ := d.update_some he.mem h
  have hkey := he.key
  refine ⟨fun e' => ?_, hentries, fun e' he' => ?_⟩
  · rw [hrows, mem_setVal]
    constructor
    · rintro ⟨⟨e'', hmem, rfl⟩, hk⟩
      by_cases hk'' : e''.key = e.key
      · rw [if_pos hk'', he.eq hmem (hk''.trans hkey)]
      · rw [if_neg hk''] at hk
        exact absurd (hk.trans hkey.symm) hk''
    · intro heq
      cases heq
      exact ⟨⟨e, he.mem, by rw [if_pos rfl]⟩, hkey⟩
  · rw [hrows, mem_setVal]
    constructor
    · rintro ⟨e'', hmem, rfl⟩
      by_cases hk'' : e''.key = e.key
      · rw [if_pos hk''] at he'
        exact absurd (hk''.trans hkey) he'
      · rwa [if_neg hk'']
    · intro hmem
      exact ⟨e', hmem, by rw [if_neg (hkey ▸ he')]⟩

lemma remove_spec (he : RowAt d c pk (some e)) :
    ∃ c', db.removeI64 c e.itr = some c' ∧ RowAt d c' pk none ∧ RowChange d c c' pk := by
  obtain ⟨c', hremove, hrows, hentries⟩ := d.remove_row he.mem
  have hkey := he.key
  refine ⟨c', hremove, fun e' => ?_, hentries, fun e' he' => ?_⟩
  · rw [hrows, mem_remove]
    constructor
    · rintro ⟨⟨-, hne⟩, hk⟩
      exact absurd (hk.trans hkey.symm) hne
    · intro heq
      cases heq
  · rw [hrows, mem_remove]
    exact ⟨And.left, fun hmem => ⟨hmem, hkey ▸ he'⟩⟩

lemma idxStore_spec (hnone : EntryAt d c i pk none)
    (h : db.idxStore c i payer pk secondary = some (itr, c')) :
    EntryAt d c' i pk (some ⟨.mk (rank i secondary) pk, itr, ⟨secondary, payer⟩⟩) ∧
      EntryChange d c c' i pk := by
  obtain ⟨hentries, hothers, hrows⟩ := d.idx_store_some h
  refine ⟨fun x => ?_, hrows, hothers, fun x hx => ?_⟩
  · rw [hentries, mem_put]
    constructor
    · rintro ⟨rfl | hmem, hkey⟩
      · rfl
      · cases (hnone x).mp ⟨hmem, hkey⟩
    · intro heq
      cases heq
      exact ⟨.inl rfl, rfl⟩
  · rw [hentries, mem_put]
    refine ⟨fun h => h.resolve_left ?_, .inr⟩
    rintro rfl
    exact hx rfl

lemma idxUpdate_spec (hx : EntryAt d c i pk (some x))
    (h : db.idxUpdate c i x.itr payer secondary = some c') :
    EntryAt d c' i pk
        (some ⟨.mk (rank i secondary) pk, x.itr, ⟨secondary, billed payer x.val.payer⟩⟩) ∧
      EntryChange d c c' i pk := by
  obtain ⟨hentries, hothers, hrows⟩ := d.idx_update_some hx.mem h
  rw [hx.primary] at hentries
  refine ⟨fun y => ?_, hrows, hothers, fun y hy => ?_⟩
  · rw [hentries, mem_put, mem_remove]
    constructor
    · rintro ⟨rfl | ⟨hmem, hne⟩, hkey⟩
      · rfl
      · exact absurd (congrArg Entry.key (hx.eq hmem hkey)) hne
    · intro heq
      cases heq
      exact ⟨.inl rfl, rfl⟩
  · rw [hentries, mem_put, mem_remove]
    constructor
    · rintro (rfl | ⟨hmem, -⟩)
      · exact absurd rfl hy
      · exact hmem
    · intro hmem
      refine .inr ⟨hmem, fun hkey => hy ?_⟩
      rw [hkey, hx.primary]

lemma idxRemove_spec (hx : EntryAt d c i pk (some x)) :
    ∃ c', db.idxRemove c i x.itr = some c' ∧ EntryAt d c' i pk none ∧ EntryChange d c c' i pk := by
  obtain ⟨c', hremove, hentries, hothers, hrows⟩ := d.idx_remove hx.mem
  refine ⟨c', hremove, fun y => ?_, hrows, hothers, fun y hy => ?_⟩
  · rw [hentries, mem_remove]
    constructor
    · rintro ⟨⟨hmem, hne⟩, hkey⟩
      exact absurd (congrArg Entry.key (hx.eq hmem hkey)) hne
    · intro heq
      cases heq
  · rw [hentries, mem_remove]
    refine ⟨And.left, fun hmem => ⟨hmem, fun hkey => hy ?_⟩⟩
    rw [hkey, hx.primary]

end Slices

/-! ## The table -/

section Table

variable (m : MultiIndex C T κ ρ) (d : OrderedMaps m.db m.rank)

/-- A row holds an object. -/
def Holds (e : Entry ℕ Row) (obj : T) : Prop :=
  m.unpack e.val.data = .ok obj ∧ m.primaryKey obj = e.key

/-- An entry of an index is that of an object. -/
def IsEntryOf (i : ℕ) (obj : T) (x : Entry (IndexKey ρ) (Reference κ)) : Prop :=
  x.key = .mk (m.rank i (m.extractSecondaryKey i obj)) (m.primaryKey obj) ∧
    x.val.secondary = m.extractSecondaryKey i obj

/-- At a primary key there is nothing, or a row and one entry in every index for it. -/
def Slice (c : C) (pk : ℕ) : Option T → Prop
  | none => RowAt d c pk none ∧ ∀ i < m.indices, EntryAt d c i pk none
  | some obj => ∃ e, RowAt d c pk (some e) ∧ Holds m e obj ∧
      ∀ i < m.indices, ∃ x, EntryAt d c i pk (some x) ∧ IsEntryOf m i obj x

/-- The database is one that this class has written. -/
def DbOk (c : C) : Prop := ∀ pk, ∃ o, Slice m d c pk o

/-- The table has a row that holds the object. -/
def InTable (c : C) (obj : T) : Prop := ∃ e ∈ d.rows c, Holds m e obj

/-! ## The cache -/

/-- A cached item is its row, and knows its entries or does not. -/
structure ItemOk (c : C) (owner : ℕ) (it : Item T) : Prop where
  idx : it.idx = owner
  row : ∃ e ∈ d.rows c, Holds m e it.obj ∧ e.itr = it.primaryItr
  iters : ∀ i < m.indices, it.iters i = -1 ∨
    ∃ x ∈ d.entries c i, IsEntryOf m i it.obj x ∧ x.itr = it.iters i

/-- `_items_vector` owns different items, of different rows. -/
structure CacheOk (s : State C T) : Prop where
  allocated : ∀ ptr ∈ s.itemsVector, ptr.item < s.allocated
  nodup : (s.itemsVector.map ItemPtr.item).Nodup
  primaryKey : ∀ ptr ∈ s.itemsVector, ptr.primaryKey = m.primaryKey (s.items ptr.item).obj
  primaryItr : ∀ ptr ∈ s.itemsVector, ptr.primaryItr = (s.items ptr.item).primaryItr
  item : ∀ ptr ∈ s.itemsVector, ItemOk m d s.chain s.self (s.items ptr.item)
  unique : ∀ ptr ∈ s.itemsVector, ∀ ptr' ∈ s.itemsVector,
    ptr.primaryKey = ptr'.primaryKey → ptr = ptr'

structure Inv (s : State C T) : Prop where
  db : DbOk m d s.chain
  cache : CacheOk m d s

/-- What a lookup leaves alone. -/
structure Keeps (s s' : State C T) : Prop where
  chain : s'.chain = s.chain
  self : s'.self = s.self
  nextPrimaryKey : s'.nextPrimaryKey = s.nextPrimaryKey
  readDiscarded : s'.readDiscarded = s.readDiscarded
  live : ∀ p, s.Live p → s'.Live p
  items : ∀ p, s.Live p → (s'.items p).obj = (s.items p).obj

/-- A lookup went from `s` to `s'`. -/
structure Steady (s s' : State C T) : Prop extends Keeps s s' where
  inv : Inv m d s'

/-- An iterator of the table is at an entry of it, or at the end. -/
def PointsTo (s : State C T) : Option ℕ → Option (Entry ℕ Row) → Prop
  | none, none => True
  | some p, some e => e ∈ d.rows s.chain ∧ s.Live p ∧ Holds m e (s.items p).obj
  | _, _ => False

/-- An iterator of an index is at an entry of it, or at the end. -/
def PointsToEntry (i : ℕ) (s : State C T) :
    Option ℕ → Option (Entry (IndexKey ρ) (Reference κ)) → Prop
  | none, none => True
  | some p, some x => x ∈ d.entries s.chain i ∧ s.Live p ∧ IsEntryOf m i (s.items p).obj x
  | _, _ => False

end Table

section Lemmas

variable {m : MultiIndex C T κ ρ} {d : OrderedMaps m.db m.rank} {c c' : C} {pk i : ℕ} {obj obj' : T}
variable {e : Entry ℕ Row} {x : Entry (IndexKey ρ) (Reference κ)} {s s' s'' : State C T}

lemma Holds.eq (h : Holds m e obj) (h' : Holds m e obj') : obj = obj' := by
  have hunpack := h.1
  rw [h'.1] at hunpack
  exact (Except.ok.inj hunpack).symm

lemma IsEntryOf.primary (h : IsEntryOf m i obj x) : x.key.primary = m.primaryKey obj := by
  rw [h.1, IndexKey.primary_mk]

/-- An empty table is one that the class has written. -/
lemma DbOk.empty (hrows : d.rows c = []) (hentries : ∀ i < m.indices, d.entries c i = []) :
    DbOk m d c := by
  intro pk
  refine ⟨none, fun e => ⟨fun he => ?_, fun heq => ?_⟩, fun i hi x => ⟨fun hx => ?_, fun heq => ?_⟩⟩
  · rw [hrows] at he
    cases he.1
  · cases heq
  · rw [hentries i hi] at hx
    cases hx.1
  · cases heq

lemma SameAt.slice {o} (h : SameAt d c c' pk) (hslice : Slice m d c pk o) : Slice m d c' pk o := by
  cases o with
  | none => exact ⟨h.rowAt hslice.1, fun i hi => h.entryAt (hslice.2 i hi)⟩
  | some obj =>
    obtain ⟨e, hrow, hholds, hentries⟩ := hslice
    refine ⟨e, h.rowAt hrow, hholds, fun i hi => ?_⟩
    obtain ⟨x, hx, hof⟩ := hentries i hi
    exact ⟨x, h.entryAt hx, hof⟩

/-- A row of a table that this class has written. -/
lemma DbOk.row (h : DbOk m d c) (he : e ∈ d.rows c) :
    ∃ obj, Holds m e obj ∧ Slice m d c e.key (some obj) := by
  obtain ⟨o, hslice⟩ := h e.key
  cases o with
  | none => cases (hslice.1 e).mp ⟨he, rfl⟩
  | some obj =>
    obtain ⟨e', hrow, hholds, hentries⟩ := hslice
    have heq := hrow.eq he rfl
    subst heq
    exact ⟨obj, hholds, e, hrow, hholds, hentries⟩

/-- A row has its entry in every index. -/
lemma DbOk.indexed (h : DbOk m d c) (he : e ∈ d.rows c) (hholds : Holds m e obj)
    (hi : i < m.indices) : ∃ x, EntryAt d c i e.key (some x) ∧ IsEntryOf m i obj x := by
  obtain ⟨obj', hholds', e', hrow, hholds'', hentries⟩ := h.row he
  rw [hholds.eq hholds']
  exact hentries i hi

/-- An entry of an index belongs to a row. -/
lemma DbOk.owned (h : DbOk m d c) (hi : i < m.indices) (hx : x ∈ d.entries c i) :
    ∃ e obj, e ∈ d.rows c ∧ Holds m e obj ∧ e.key = x.key.primary ∧ IsEntryOf m i obj x ∧
      EntryAt d c i x.key.primary (some x) := by
  obtain ⟨o, hslice⟩ := h x.key.primary
  cases o with
  | none => cases (hslice.2 i hi x).mp ⟨hx, rfl⟩
  | some obj =>
    obtain ⟨e, hrow, hholds, hentries⟩ := hslice
    obtain ⟨x', hx', hof⟩ := hentries i hi
    have heq := hx'.eq hx rfl
    subst heq
    exact ⟨e, obj, hrow.mem, hholds, hrow.key, hof, hx'⟩

lemma SameAt.itemOk {owner : ℕ} {it : Item T} (h : SameAt d c c' (m.primaryKey it.obj))
    (hitem : ItemOk m d c owner it) : ItemOk m d c' owner it := by
  refine ⟨hitem.idx, ?_, fun i hi => ?_⟩
  · obtain ⟨e, he, hholds, hitr⟩ := hitem.row
    exact ⟨e, (h.row e hholds.2.symm).mpr he, hholds, hitr⟩
  · refine (hitem.iters i hi).imp_right ?_
    rintro ⟨x, hx, hof, hitr⟩
    exact ⟨x, (h.entry i x hof.primary).mpr hx, hof, hitr⟩

/-! ## Live items -/

/-- What a live item is. -/
lemma CacheOk.live {p : ℕ} (h : CacheOk m d s) (hp : s.Live p) :
    ∃ ptr ∈ s.itemsVector, ptr.item = p ∧ ptr.primaryKey = m.primaryKey (s.items p).obj ∧
      ptr.primaryItr = (s.items p).primaryItr ∧ ItemOk m d s.chain s.self (s.items p) := by
  obtain ⟨ptr, hptr, rfl⟩ := hp
  exact ⟨ptr, hptr, rfl, h.primaryKey ptr hptr, h.primaryItr ptr hptr, h.item ptr hptr⟩

lemma CacheOk.itemOk {p : ℕ} (h : CacheOk m d s) (hp : s.Live p) :
    ItemOk m d s.chain s.self (s.items p) := by
  obtain ⟨_, -, -, -, -, hitem⟩ := h.live hp
  exact hitem

/-- The handle of a live item is that of the row that holds it. -/
lemma CacheOk.row {p : ℕ} (h : CacheOk m d s) (hp : s.Live p) :
    ∃ e ∈ d.rows s.chain, Holds m e (s.items p).obj ∧ (s.items p).primaryItr = e.itr := by
  obtain ⟨e, he, hholds, hitr⟩ := (h.itemOk hp).row
  exact ⟨e, he, hholds, hitr.symm⟩

lemma CacheOk.row_eq {p : ℕ} (h : CacheOk m d s) (hp : s.Live p) (he : e ∈ d.rows s.chain)
    (hholds : Holds m e (s.items p).obj) : (s.items p).primaryItr = e.itr := by
  obtain ⟨e', he', hholds', hitr⟩ := h.row hp
  rw [hitr, (d.rows_sorted s.chain).eq_of_key he he' (hholds.2.symm.trans hholds'.2)]

/-- Two live items of one row are one item. -/
lemma CacheOk.live_unique {p p' : ℕ} (h : CacheOk m d s) (hp : s.Live p) (hp' : s.Live p')
    (hkey : m.primaryKey (s.items p).obj = m.primaryKey (s.items p').obj) : p = p' := by
  obtain ⟨ptr, hptr, hitem, hpk, -⟩ := h.live hp
  obtain ⟨ptr', hptr', hitem', hpk', -⟩ := h.live hp'
  rw [← hitem, ← hitem', h.unique ptr hptr ptr' hptr' (hpk.trans (hkey.trans hpk'.symm))]

/-! ## Lookups -/

lemma Keeps.refl : Keeps s s := ⟨rfl, rfl, rfl, rfl, fun _ h => h, fun _ _ => rfl⟩

lemma Keeps.trans (h : Keeps s s') (h' : Keeps s' s'') : Keeps s s'' where
  chain := h'.chain.trans h.chain
  self := h'.self.trans h.self
  nextPrimaryKey := h'.nextPrimaryKey.trans h.nextPrimaryKey
  readDiscarded := h'.readDiscarded.trans h.readDiscarded
  live p hp := h'.live p (h.live p hp)
  items p hp := (h'.items p (h.live p hp)).trans (h.items p hp)

lemma Steady.refl (h : Inv m d s) : Steady m d s s := ⟨Keeps.refl, h⟩

lemma Steady.trans (h : Steady m d s s') (h' : Steady m d s' s'') : Steady m d s s'' :=
  ⟨h.toKeeps.trans h'.toKeeps, h'.inv⟩

lemma Keeps.pointsTo {it o} (h : Keeps s s') (hp : PointsTo m d s it o) : PointsTo m d s' it o := by
  cases it <;> cases o
  · trivial
  · exact hp
  · exact hp
  · obtain ⟨he, hlive, hholds⟩ := hp
    refine ⟨?_, h.live _ hlive, ?_⟩
    · rwa [h.chain]
    · rwa [h.items _ hlive]

lemma Keeps.pointsToEntry {it o} (h : Keeps s s') (hp : PointsToEntry m d i s it o) :
    PointsToEntry m d i s' it o := by
  cases it <;> cases o
  · trivial
  · exact hp
  · exact hp
  · obtain ⟨hx, hlive, hof⟩ := hp
    refine ⟨?_, h.live _ hlive, ?_⟩
    · rwa [h.chain]
    · rwa [h.items _ hlive]

end Lemmas

end UosioCdt.Contracts
