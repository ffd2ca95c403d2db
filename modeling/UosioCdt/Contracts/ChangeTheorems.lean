import UosioCdt.Contracts.IndexTheorems

/-!
# `emplace`, `modify` and `erase`

Each of them changes the database at one primary key, the row and one index after another. When it
returns, that key has a row and its entries, or nothing, again.
-/

namespace UosioCdt.Contracts

open MultiIndex OrderedTable Aborting

variable {C T κ ρ : Type} [LinearOrder ρ]
variable {m : MultiIndex C T κ ρ} {d : OrderedMaps m.db m.rank}
variable {s s' s'' : State C T} {p pk payer : ℕ}

/-! ## Calls to the chain -/

lemma intrinsic_meets {α : Type} {call : C → Option (α × C)} {Q : α → State C T → Prop}
    {E : String → State C T → Prop}
    (hsome : ∀ a c, call s.chain = some (a, c) → Q a { s with chain := c })
    (hnone : call s.chain = none → E "transaction aborted" s) : Meets (intrinsic call) s Q E := by
  unfold intrinsic
  rw [meets_bind, meets_get]
  cases hcall : call s.chain with
  | none => exact hnone hcall
  | some r => exact hsome r.1 r.2 hcall

lemma intrinsicUnit_meets {call : C → Option C} {Q : Unit → State C T → Prop}
    {E : String → State C T → Prop} (hsome : ∀ c, call s.chain = some c → Q () { s with chain := c })
    (hnone : call s.chain = none → E "transaction aborted" s) :
    Meets (intrinsicUnit call) s Q E := by
  unfold intrinsicUnit
  refine intrinsic_meets (fun a c hcall => ?_) fun hcall => ?_
  · obtain ⟨c', hc', heq⟩ := Option.map_eq_some_iff.mp hcall
    cases heq
    exact hsome c hc'
  · exact hnone (Option.map_eq_none_iff.mp hcall)

/-! ## What a change does -/

/-- `_next_primary_key` after a row with a key was written. -/
def raised (next pk : ℕ) : ℕ :=
  if pk ≥ next then if pk ≥ noAvailablePrimaryKey then noAvailablePrimaryKey else pk + 1 else next

lemma meets_raiseNextPrimaryKey {Q : Unit → State C T → Prop} {E : String → State C T → Prop} :
    Meets (raiseNextPrimaryKey pk) s Q E ↔
      Q () { s with nextPrimaryKey := raised s.nextPrimaryKey pk } := by
  unfold raiseNextPrimaryKey raised
  rw [meets_modify]
  split <;> rfl

/-- A call changed one primary key, and no item of another row. -/
structure Changes (m : MultiIndex C T κ ρ) (d : OrderedMaps m.db m.rank) (pk : ℕ)
    (s s' : State C T) : Prop where
  same : ∀ k, k ≠ pk → SameAt d s.chain s'.chain k
  self : s'.self = s.self
  live : ∀ q, s.Live q → m.primaryKey (s.items q).obj ≠ pk →
    s'.Live q ∧ (s'.items q).obj = (s.items q).obj

lemma Keeps.changes (h : Keeps s s') (hc : Changes m d pk s' s'') : Changes m d pk s s'' where
  same k hk := h.chain ▸ hc.same k hk
  self := hc.self.trans h.self
  live q hq hne := by
    have hobj := h.items q hq
    obtain ⟨hlive, hitems⟩ := hc.live q (h.live q hq) (hobj.symm ▸ hne)
    exact ⟨hlive, hitems.trans hobj⟩

lemma Changes.pointsTo {it o} (h : Changes m d pk s s') (hp : PointsTo m d s it o)
    (hne : ∀ e, o = some e → e.key ≠ pk) : PointsTo m d s' it o := by
  cases it <;> cases o
  · trivial
  · exact hp
  · exact hp
  · rename_i q e
    obtain ⟨he, hlive, hholds⟩ := hp
    have hk := hne e rfl
    obtain ⟨hlive', hobj⟩ := h.live q hlive (hholds.2.symm ▸ hk)
    exact ⟨((h.same e.key hk).row e rfl).mpr he, hlive', hobj.symm ▸ hholds⟩

lemma Changes.pointsToEntry {i : ℕ} {it o} (h : Changes m d pk s s')
    (hp : PointsToEntry m d i s it o) (hne : ∀ x, o = some x → x.key.primary ≠ pk) :
    PointsToEntry m d i s' it o := by
  cases it <;> cases o
  · trivial
  · exact hp
  · exact hp
  · rename_i q x
    obtain ⟨hx, hlive, hof⟩ := hp
    have hk := hne x rfl
    obtain ⟨hlive', hobj⟩ := h.live q hlive (hof.primary.symm ▸ hk)
    exact ⟨((h.same x.key.primary hk).entry i x rfl).mpr hx, hlive', hobj.symm ▸ hof⟩

/-- The whole database is in order again once the changed key is. -/
lemma DbOk.changed {c c' : C} {o : Option T} (h : DbOk m d c)
    (hsame : ∀ k, k ≠ pk → SameAt d c c' k) (hslice : Slice m d c' pk o) : DbOk m d c' := by
  intro k
  by_cases hk : k = pk
  · subst hk
    exact ⟨o, hslice⟩
  · obtain ⟨o', hslice'⟩ := h k
    exact ⟨o', (hsame k hk).slice hslice'⟩

/-- Items of other rows do not see the change. -/
lemma CacheOk.onChain {c' : C} {next : ℕ} (h : CacheOk m d s)
    (hsame : ∀ q, s.Live q → SameAt d s.chain c' (m.primaryKey (s.items q).obj)) :
    CacheOk m d { s with chain := c', nextPrimaryKey := next } where
  allocated := h.allocated
  nodup := h.nodup
  primaryKey := h.primaryKey
  primaryItr := h.primaryItr
  item ptr hptr := (hsame ptr.item ⟨ptr, hptr, rfl⟩).itemOk (h.item ptr hptr)
  unique := h.unique

/-! ## `emplace` -/

/-- The entry of a new row. -/
def newEntry (m : MultiIndex C T κ ρ) (obj : T) (payer i : ℕ) (itr : ℤ) :
    Entry (IndexKey ρ) (Reference κ) where
  key := .mk (m.rank i (m.extractSecondaryKey i obj)) (m.primaryKey obj)
  itr := itr
  val := ⟨m.extractSecondaryKey i obj, payer⟩

/-- Below `n` the indices have the entry of the new row, from there on nothing. -/
structure StoredUpTo (m : MultiIndex C T κ ρ) (d : OrderedMaps m.db m.rank) (obj : T) (payer : ℕ)
    (e : Entry ℕ Row) (c : C) (n : ℕ) (iters : ℕ → ℤ) (c' : C) : Prop where
  row : RowAt d c' (m.primaryKey obj) (some e)
  stored : ∀ i < n, EntryAt d c' i (m.primaryKey obj) (some (newEntry m obj payer i (iters i)))
  missing : ∀ i, n ≤ i → i < m.indices → EntryAt d c' i (m.primaryKey obj) none
  same : ∀ k, k ≠ m.primaryKey obj → SameAt d c c' k

lemma StoredUpTo.step {obj : T} {e : Entry ℕ Row} {c c' c'' : C} {n : ℕ} {iters : ℕ → ℤ} {itr : ℤ}
    (h : StoredUpTo m d obj payer e c n iters c') (hn : n < m.indices)
    (hstore : m.db.idxStore c' n payer (m.primaryKey obj) (m.extractSecondaryKey n obj) =
      some (itr, c'')) :
    StoredUpTo m d obj payer e c (n + 1) (Function.update iters n itr) c'' := by
  obtain ⟨hentry, hchange⟩ := idxStore_spec (h.missing n le_rfl hn) hstore
  refine ⟨hchange.rowAt.mpr h.row, fun i hi => ?_, fun i hi hlt => ?_, fun k hk => ?_⟩
  · by_cases hin : i = n
    · subst hin
      rw [Function.update_self]
      exact hentry
    · rw [Function.update_of_ne hin]
      exact (hchange.entryAt hin).mpr (h.stored i (by omega))
  · exact (hchange.entryAt (by omega)).mpr (h.missing i (by omega) hlt)
  · exact (h.same k hk).trans (hchange.sameAt hk)

lemma storeIndices_spec {obj : T} {e : Entry ℕ Row} {c : C} {iters : ℕ → ℤ}
    (h : StoredUpTo m d obj payer e c 0 iters s.chain) :
    Meets (m.storeIndices payer obj) s
      (fun iters s' => s' = { s with chain := s'.chain } ∧
        StoredUpTo m d obj payer e c m.indices iters s'.chain)
      fun _ s' => m.indices ≠ 0 ∧ s'.readDiscarded = s.readDiscarded := by
  unfold storeIndices
  refine Meets.foldRange (fun n iters (s' : State C T) => s' = { s with chain := s'.chain } ∧
    StoredUpTo m d obj payer e c n iters s'.chain) ?_ ?_
  · exact ⟨rfl, h.row, fun i hi => absurd hi (Nat.not_lt_zero i), h.missing, h.same⟩
  · rintro n hn iters' s' ⟨hs', hstored⟩
    rw [meets_bind]
    refine intrinsic_meets (fun itr c'' hstore => ?_) fun _ => ?_
    · rw [meets_pure]
      refine ⟨?_, hstored.step hn hstore⟩
      rw [hs']
    · rw [hs']
      exact ⟨by omega, rfl⟩

/-- A row and all its entries make the key complete. -/
lemma StoredUpTo.slice {obj : T} {e : Entry ℕ Row} {c c' : C} {iters : ℕ → ℤ}
    (h : StoredUpTo m d obj payer e c m.indices iters c') (hholds : Holds m e obj) :
    Slice m d c' (m.primaryKey obj) (some obj) :=
  ⟨e, h.row, hholds, fun i hi => ⟨_, h.stored i hi, rfl, rfl⟩⟩

lemma Holds.pack {e : Entry ℕ Row} {obj : T} (hkey : e.key = m.primaryKey obj)
    (hdata : e.val.data = m.pack obj) : Holds m e obj :=
  ⟨by rw [hdata, m.unpack_pack], hkey.symm⟩

/-- `emplace` has returned `it` for a new object. -/
structure Emplaced (m : MultiIndex C T κ ρ) (d : OrderedMaps m.db m.rank) (obj : T)
    (s s' : State C T) (it : Option ℕ) : Prop where
  inv : Inv m d s'
  changes : Changes m d (m.primaryKey obj) s s'
  receiver : m.code = m.receiver
  before : Slice m d s.chain (m.primaryKey obj) none
  after : Slice m d s'.chain (m.primaryKey obj) (some obj)
  item : ∃ q, it = some q ∧ s'.Live q ∧ (s'.items q).obj = obj
  nextPrimaryKey : s'.nextPrimaryKey = raised s.nextPrimaryKey (m.primaryKey obj)
  readDiscarded : s'.readDiscarded = s.readDiscarded

/-- At a key without a row no index has an entry. -/
lemma DbOk.empty_of_row {c : C} {pk : ℕ} (h : DbOk m d c) (hnone : RowAt d c pk none) :
    Slice m d c pk none := by
  obtain ⟨o, hslice⟩ := h pk
  cases o with
  | none => exact hslice
  | some obj =>
    obtain ⟨e, he, -⟩ := hslice
    cases (hnone e).mp ⟨he.mem, he.key⟩

/-- No item of the cache has a key without a row. -/
lemma Inv.key_ne {pk : ℕ} (h : Inv m d s) (hnone : RowAt d s.chain pk none) (hp : s.Live p) :
    m.primaryKey (s.items p).obj ≠ pk := by
  intro heq
  obtain ⟨e, he, hholds, -⟩ := h.cache.row hp
  cases (hnone e).mp ⟨he, hholds.2.symm.trans heq⟩

/-- When all entries are stored, the key is complete and the new item is its row. -/
lemma StoredUpTo.emplaced {obj : T} {itr : ℤ} {iters : ℕ → ℤ} {s1 : State C T} (h : Inv m d s)
    (hcode : m.code = m.receiver) (hnone : RowAt d s.chain (m.primaryKey obj) none)
    (hs1 : s1 = { s with
      chain := s1.chain, nextPrimaryKey := raised s.nextPrimaryKey (m.primaryKey obj) })
    (hstored : StoredUpTo m d obj payer ⟨m.primaryKey obj, itr, ⟨m.pack obj, payer⟩⟩ s.chain
      m.indices iters s1.chain) :
    Emplaced m d obj s (pushed s1 ⟨obj, s1.self, itr, iters⟩ (m.primaryKey obj))
      (some s1.allocated) := by
  have hholds : Holds m ⟨m.primaryKey obj, itr, ⟨m.pack obj, payer⟩⟩ obj := Holds.pack rfl rfl
  have hslice := hstored.slice hholds
  -- the items from before are of other rows
  have hsame : ∀ q, s.Live q → SameAt d s.chain s1.chain (m.primaryKey (s.items q).obj) :=
    fun q hq => hstored.same _ (h.key_ne hnone hq)
  have hcache : CacheOk m d s1 := by
    rw [hs1]
    exact h.cache.onChain hsame
  have hnew : ∀ ptr ∈ s1.itemsVector, ptr.primaryKey ≠ m.primaryKey obj := by
    intro ptr hptr
    rw [hs1] at hptr
    rw [h.cache.primaryKey ptr hptr]
    exact h.key_ne hnone ⟨ptr, hptr, rfl⟩
  have hitem : ItemOk m d s1.chain s1.self ⟨obj, s1.self, itr, iters⟩ :=
    ⟨rfl, ⟨_, hstored.row.mem, hholds, rfl⟩,
      fun i hi => .inr ⟨_, (hstored.stored i hi).mem, ⟨rfl, rfl⟩, rfl⟩⟩
  have hkeeps : Keeps s1 (pushed s1 ⟨obj, s1.self, itr, iters⟩ (m.primaryKey obj)) :=
    keeps_pushed hcache
  have hlive : ∀ q, s.Live q → s1.Live q := by
    intro q hq
    rw [hs1]
    exact hq
  constructor
  case inv => exact ⟨h.db.changed hstored.same hslice, hcache.pushed hitem hnew⟩
  case changes =>
    refine ⟨hstored.same, ?_, fun q hq _ => ⟨hkeeps.live q (hlive q hq), ?_⟩⟩
    · rw [hkeeps.self, hs1]
    · rw [hkeeps.items q (hlive q hq), hs1]
  case receiver => exact hcode
  case before => exact h.db.empty_of_row hnone
  case after => exact hslice
  case item => exact ⟨_, rfl, live_pushed, by rw [pushed_items_self]⟩
  case nextPrimaryKey => rw [hkeeps.nextPrimaryKey, hs1]
  case readDiscarded => rw [hkeeps.readDiscarded, hs1]

section Emplace

variable [Inhabited T]

theorem emplace_spec (h : Inv m d s) (payer : ℕ) (constructor : T → T) :
    Meets (m.emplace payer constructor) s
      (fun it s' => Emplaced m d (constructor default) s s' it)
      fun _ s' => s'.readDiscarded = s.readDiscarded ∧
        (m.code = m.receiver → m.indices = 0 → d.bills s.chain payer →
          ¬ RowAt d s.chain (m.primaryKey (constructor default)) none) := by
  unfold MultiIndex.emplace
  by_cases hcode : m.code = m.receiver
  · rw [meets_bind, meets_check_pos hcode]
    generalize constructor default = obj
    rw [meets_bind]
    refine intrinsic_meets (fun itr c1 hstore => ?_) fun hrefused => ?_
    · obtain ⟨hnone, hrow, hchange⟩ := store_spec (d := d) hstore
      have hempty := h.db.empty_of_row hnone
      rw [meets_bind, meets_raiseNextPrimaryKey]
      have hstart : StoredUpTo m d obj payer ⟨m.primaryKey obj, itr, ⟨m.pack obj, payer⟩⟩ s.chain 0
          (fun _ => 0) c1 :=
        ⟨hrow, fun i hi => absurd hi (Nat.not_lt_zero i),
          fun i _ hi => hchange.entryAt.mpr (hempty.2 i hi), fun k hk => hchange.sameAt hk⟩
      rw [meets_bind]
      refine (storeIndices_spec hstart).mono ?_ ?_
      · rintro iters s1 ⟨hs1, hstored⟩
        rw [meets_bind, meets_get, meets_map, meets_emplaceBack]
        exact hstored.emplaced h hcode hnone hs1
      · rintro _ s1 ⟨hindices, hflag⟩
        exact ⟨hflag, fun _ hzero => absurd hzero hindices⟩
    · -- the chain takes a row that is new and that the payer is billed for
      refine ⟨rfl, fun _ _ hbills hnone => ?_⟩
      have hsome := d.store_bills (m.pack obj) (m.primaryKey_lt obj) hbills
        fun e he hkey => Option.some_ne_none e ((hnone e).mp ⟨he, hkey⟩).symm
      rw [hrefused] at hsome
      cases hsome
  · rw [meets_bind, meets_check_neg hcode]
    exact ⟨rfl, fun h => absurd h hcode⟩

end Emplace

/-! ## `modify` -/

section Modify

variable [DecidableEq κ]

/-- The entry of a row whose object becomes `new`. -/
def movedEntry (m : MultiIndex C T κ ρ) (old new : T) (payer i : ℕ)
    (x : Entry (IndexKey ρ) (Reference κ)) : Entry (IndexKey ρ) (Reference κ) :=
  if m.extractSecondaryKey i old = m.extractSecondaryKey i new then x
  else {
    key := .mk (m.rank i (m.extractSecondaryKey i new)) (m.primaryKey new)
    itr := x.itr
    val := ⟨m.extractSecondaryKey i new, billed payer x.val.payer⟩ }

lemma movedEntry_itr {old new : T} {i : ℕ} {x : Entry (IndexKey ρ) (Reference κ)} :
    (movedEntry m old new payer i x).itr = x.itr := by
  unfold movedEntry
  split <;> rfl

lemma movedEntry_isEntryOf {old new : T} {i : ℕ} {x : Entry (IndexKey ρ) (Reference κ)}
    (hkey : m.primaryKey old = m.primaryKey new) (hof : IsEntryOf m i old x) :
    IsEntryOf m i new (movedEntry m old new payer i x) := by
  unfold movedEntry
  split
  · rename_i hsame
    unfold IsEntryOf
    rw [← hsame, ← hkey]
    exact hof
  · exact ⟨rfl, rfl⟩

/-- Below `n` the entries of the row have moved, from there on they are what they were. -/
structure MovedUpTo (m : MultiIndex C T κ ρ) (d : OrderedMaps m.db m.rank) (old new : T)
    (payer : ℕ) (e : Entry ℕ Row) (c : C) (n : ℕ) (iters : ℕ → ℤ) (c' : C) : Prop where
  row : RowAt d c' (m.primaryKey new) (some e)
  moved : ∀ i < n, ∀ x, EntryAt d c i (m.primaryKey new) (some x) →
    EntryAt d c' i (m.primaryKey new) (some (movedEntry m old new payer i x))
  left : ∀ i, n ≤ i → i < m.indices → ∀ x, EntryAt d c i (m.primaryKey new) (some x) →
    EntryAt d c' i (m.primaryKey new) (some x)
  iters : ∀ i < m.indices, iters i = -1 ∨
    ∀ x, EntryAt d c i (m.primaryKey new) (some x) → iters i = x.itr
  same : ∀ k, k ≠ m.primaryKey new → SameAt d c c' k

variable {old new : T} {e : Entry ℕ Row} {c : C} {n : ℕ}

/-- The state in the loop: only the handles of the item, the chain and the counter have changed. -/
def modifying (s : State C T) (p next : ℕ) (new : T) (iters : ℕ → ℤ) (c : C) : State C T :=
  { written s p ⟨new, (s.items p).idx, (s.items p).primaryItr, iters⟩ with
    chain := c, nextPrimaryKey := next }

lemma modifying_items {next : ℕ} {iters : ℕ → ℤ} {c' : C} :
    (modifying s p next new iters c').items p =
      ⟨new, (s.items p).idx, (s.items p).primaryItr, iters⟩ := written_items_self

lemma modifying_live {next q : ℕ} {iters : ℕ → ℤ} {c' : C} :
    (modifying s p next new iters c').Live q ↔ s.Live q := Iff.rfl

/-- The item's handle leads to the entry that is still to be moved. -/
lemma modifyItrOf_spec {next : ℕ} {iters : ℕ → ℤ} {c' : C} {x : Entry (IndexKey ρ) (Reference κ)}
    (hp : s.Live p) (h : MovedUpTo m d old new payer e c n iters c') (hn : n < m.indices)
    (hx : EntryAt d c n (m.primaryKey new) (some x)) :
    Returns (m.modifyItrOf p (m.primaryKey new) n) (modifying s p next new iters c') fun itr s' =>
      itr = x.itr ∧ ∃ iters', s' = modifying s p next new iters' c' ∧
        MovedUpTo m d old new payer e c n iters' c' := by
  have hleft := h.left n le_rfl hn x hx
  have hitem : (modifying s p next new iters c').items p =
      ⟨new, (s.items p).idx, (s.items p).primaryItr, iters⟩ := modifying_items
  unfold modifyItrOf Returns
  rw [meets_bind, meets_readItem (modifying_live.mpr hp), hitem]
  by_cases hneg : iters n < 0
  · rw [if_pos hneg, meets_bind, meets_get]
    show Meets (do
        writeItem p fun item => Item.mk item.obj item.idx item.primaryItr
          (Function.update item.iters n (m.db.idxFindPrimary c' n (m.primaryKey new)))
        pure (m.db.idxFindPrimary c' n (m.primaryKey new))) _ _ _
    rw [hleft.findPrimary, meets_bind, meets_writeItem, meets_pure, hitem]
    refine ⟨rfl, Function.update iters n x.itr, ?_, h.row, h.moved, h.left, fun i hi => ?_, h.same⟩
    · unfold modifying written
      simp only [Function.update_idem]
    · by_cases hin : i = n
      · subst hin
        rw [Function.update_self]
        refine .inr fun y hy => ?_
        rw [hx.eq hy.mem hy.primary]
      · rw [Function.update_of_ne hin]
        exact h.iters i hi
  · rw [if_neg hneg, meets_pure]
    refine ⟨?_, iters, rfl, h⟩
    rcases h.iters n hn with hunset | hitr
    · omega
    · exact hitr x hx

/-- One index of the loop. -/
lemma modifyIndex_spec {next : ℕ} {iters : ℕ → ℤ} {c' : C} {x : Entry (IndexKey ρ) (Reference κ)}
    (hp : s.Live p) (h : MovedUpTo m d old new payer e c n iters c') (hn : n < m.indices)
    (hx : EntryAt d c n (m.primaryKey new) (some x)) :
    Meets (m.modifyIndex p (m.primaryKey new) payer (fun i => m.extractSecondaryKey i old) n)
      (modifying s p next new iters c')
      (fun _ s' => ∃ iters' c'', s' = modifying s p next new iters' c'' ∧
        MovedUpTo m d old new payer e c (n + 1) iters' c'')
      fun _ s' => s'.readDiscarded = s.readDiscarded ∧ m.indices ≠ 0 := by
  unfold modifyIndex
  rw [meets_bind, meets_readItem (modifying_live.mpr hp), modifying_items]
  by_cases hsame : m.extractSecondaryKey n old = m.extractSecondaryKey n new
  · rw [if_neg (not_not.mpr hsame), meets_pure]
    refine ⟨iters, c', rfl, h.row, fun i hi y hy => ?_, fun i hi => h.left i (by omega), h.iters,
      h.same⟩
    by_cases hin : i = n
    · subst hin
      unfold movedEntry
      rw [if_pos hsame]
      exact h.left i le_rfl hn y hy
    · exact h.moved i (by omega) y hy
  · rw [if_pos hsame]
    refine (modifyItrOf_spec hp h hn hx).bind ?_
    rintro itr s' ⟨rfl, iters', rfl, h'⟩
    refine intrinsicUnit_meets (fun c'' hupdate => ?_) fun _ => ⟨rfl, by omega⟩
    obtain ⟨hentry, hchange⟩ := idxUpdate_spec (h'.left n le_rfl hn x hx) hupdate
    refine ⟨iters', c'', rfl, hchange.rowAt.mpr h'.row, fun i hi y hy => ?_, fun i hi hlt y hy => ?_,
      h'.iters, fun k hk => (h'.same k hk).trans (hchange.sameAt hk)⟩
    · by_cases hin : i = n
      · subst hin
        unfold movedEntry
        rw [if_neg hsame, hx.eq hy.mem hy.primary]
        exact hentry
      · exact (hchange.entryAt hin).mpr (h'.moved i (by omega) y hy)
    · exact (hchange.entryAt (by omega)).mpr (h'.left i (by omega) hlt y hy)

/-- All indices of the loop. -/
lemma modifyIndices_spec {next : ℕ} {iters : ℕ → ℤ} {c' : C} (hp : s.Live p)
    (h : MovedUpTo m d old new payer e c 0 iters c')
    (hentries : ∀ i < m.indices, ∃ x, EntryAt d c i (m.primaryKey new) (some x)) :
    Meets (forM (List.range m.indices)
        (m.modifyIndex p (m.primaryKey new) payer fun i => m.extractSecondaryKey i old))
      (modifying s p next new iters c')
      (fun _ s' => ∃ iters' c'', s' = modifying s p next new iters' c'' ∧
        MovedUpTo m d old new payer e c m.indices iters' c'')
      fun _ s' => s'.readDiscarded = s.readDiscarded ∧ m.indices ≠ 0 := by
  refine Meets.forRange (fun n (s' : State C T) => ∃ iters' c'',
    s' = modifying s p next new iters' c'' ∧ MovedUpTo m d old new payer e c n iters' c'')
    ⟨iters, c', rfl, h⟩ ?_
  rintro n hn _ ⟨iters', c'', rfl, hmoved⟩
  obtain ⟨x, hx⟩ := hentries n hn
  exact modifyIndex_spec hp hmoved hn hx

/-- `modify` has returned with `new` in the place of the item's object. -/
structure Modified (m : MultiIndex C T κ ρ) (d : OrderedMaps m.db m.rank) (p payer : ℕ)
    (old new : T) (s s' : State C T) : Prop where
  inv : Inv m d s'
  changes : Changes m d (m.primaryKey old) s s'
  receiver : m.code = m.receiver
  key : m.primaryKey old = m.primaryKey new
  after : Slice m d s'.chain (m.primaryKey old) (some new)
  live : s'.Live p
  item : (s'.items p).obj = new
  row : ∀ e, RowAt d s.chain (m.primaryKey old) (some e) → RowAt d s'.chain (m.primaryKey old)
    (some { e with val := ⟨m.pack new, billed payer e.val.payer⟩ })
  entries : ∀ i < m.indices, ∀ x, EntryAt d s.chain i (m.primaryKey old) (some x) →
    EntryAt d s'.chain i (m.primaryKey old) (some (movedEntry m old new payer i x))
  nextPrimaryKey : s'.nextPrimaryKey = raised s.nextPrimaryKey (m.primaryKey old)
  readDiscarded : s'.readDiscarded = s.readDiscarded

/-- When all entries have moved, the key is complete and the item is its row. -/
lemma MovedUpTo.modified {iters : ℕ → ℤ} {c' : C} (h : Inv m d s) (hp : s.Live p)
    (hold : (s.items p).obj = old) (hcode : m.code = m.receiver)
    (hkey : m.primaryKey old = m.primaryKey new)
    (he : e ∈ d.rows s.chain) (hholds : Holds m e old) (hitr : (s.items p).primaryItr = e.itr)
    (hmoved : MovedUpTo m d old new payer { e with val := ⟨m.pack new, billed payer e.val.payer⟩ }
      s.chain m.indices iters c') :
    Modified m d p payer old new s
      (modifying s p (raised s.nextPrimaryKey (m.primaryKey old)) new iters c') := by
  have hholds' : Holds m { e with val := ⟨m.pack new, billed payer e.val.payer⟩ } new :=
    Holds.pack (hholds.2.symm.trans hkey) rfl
  have hentries : ∀ i < m.indices, ∃ x, EntryAt d s.chain i (m.primaryKey new) (some x) ∧
      IsEntryOf m i old x := by
    intro i hi
    obtain ⟨x, hx, hof⟩ := h.db.indexed he hholds hi
    rw [← hholds.2, hkey] at hx
    exact ⟨x, hx, hof⟩
  have hslice : Slice m d c' (m.primaryKey new) (some new) := by
    refine ⟨_, hmoved.row, hholds', fun i hi => ?_⟩
    obtain ⟨x, hx, hof⟩ := hentries i hi
    exact ⟨_, hmoved.moved i hi x hx, movedEntry_isEntryOf hkey hof⟩
  have hitem : ItemOk m d c' s.self ⟨new, (s.items p).idx, (s.items p).primaryItr, iters⟩ := by
    refine ⟨(h.cache.itemOk hp).idx, ⟨_, hmoved.row.mem, hholds', hitr.symm⟩, fun i hi => ?_⟩
    obtain ⟨x, hx, hof⟩ := hentries i hi
    refine (hmoved.iters i hi).imp_right fun hiters => ?_
    exact ⟨_, (hmoved.moved i hi x hx).mem, movedEntry_isEntryOf hkey hof,
      movedEntry_itr.trans (hiters x hx).symm⟩
  have hpk : m.primaryKey new = m.primaryKey (s.items p).obj := by rw [hold, hkey]
  have hcache : CacheOk m d
      (modifying s p (raised s.nextPrimaryKey (m.primaryKey old)) new iters c') :=
    h.cache.rewritten hp hpk rfl hitem fun k hk => hmoved.same k fun heq => hk (heq.trans hpk)
  constructor
  case inv => exact ⟨h.db.changed hmoved.same hslice, hcache⟩
  case changes =>
    refine ⟨fun k hk => hmoved.same k (hkey ▸ hk), rfl, fun q hq hne => ⟨hq, ?_⟩⟩
    have hqp : q ≠ p := by
      rintro rfl
      exact hne (congrArg m.primaryKey hold)
    exact congrArg Item.obj (written_items_of_ne hqp)
  case receiver => exact hcode
  case key => exact hkey
  case after => exact hkey ▸ hslice
  case live => exact hp
  case item => rw [modifying_items]
  case row =>
    intro e' he'
    rw [RowAt.eq (rowAt_of_mem he) he'.mem (he'.key.trans hholds.2), hkey]
    exact hmoved.row
  case entries => exact hkey ▸ hmoved.moved
  case nextPrimaryKey => rfl
  case readDiscarded => rfl

theorem modifyObj_spec (h : Inv m d s) (hp : s.Live p) (payer : ℕ) (updater : T → T) :
    Meets (m.modifyObj p payer updater) s
      (fun _ s' => Modified m d p payer (s.items p).obj (updater (s.items p).obj) s s')
      fun _ s' => s'.readDiscarded = s.readDiscarded ∧
        (m.code = m.receiver → m.indices = 0 → payer = samePayer ∨ d.bills s.chain payer →
          m.primaryKey (s.items p).obj ≠ m.primaryKey (updater (s.items p).obj)) := by
  have hitem := h.cache.itemOk hp
  obtain ⟨e, he, hholds, hitr⟩ := h.cache.row hp
  unfold modifyObj
  rw [meets_bind, meets_readItem hp, meets_bind, meets_get, meets_bind, meets_check_pos hitem.idx]
  by_cases hcode : m.code = m.receiver
  · rw [meets_bind, meets_check_pos hcode, meets_bind, meets_writeItem]
    generalize hold : (s.items p).obj = old at *
    generalize updater old = new
    have hlive : (written s p ⟨new, (s.items p).idx, (s.items p).primaryItr,
      (s.items p).iters⟩).Live p := hp
    show Meets _ (written s p ⟨new, (s.items p).idx, (s.items p).primaryItr, (s.items p).iters⟩) _ _
    rw [meets_bind, meets_readItem hlive, written_items_self]
    by_cases hkey : m.primaryKey old = m.primaryKey new
    · have hrow : RowAt d s.chain (m.primaryKey new) (some e) := by
        rw [← hkey, hholds.2]
        exact rowAt_of_mem he
      rw [meets_bind, meets_check_pos hkey, meets_bind]
      refine intrinsicUnit_meets (fun c1 hupdate => ?_) fun hrefused => ⟨rfl, fun _ _ hbills => ?_⟩
      · obtain ⟨hrow1, hchange⟩ := update_spec (d := d) hrow (hitr ▸ hupdate)
        rw [meets_bind, meets_raiseNextPrimaryKey, hkey]
        have hstart : MovedUpTo m d old new payer
            { e with val := ⟨m.pack new, billed payer e.val.payer⟩ } s.chain 0
            (s.items p).iters c1 := by
          refine ⟨hrow1, fun i hi => absurd hi (Nat.not_lt_zero i),
            fun i _ _ x hx => hchange.entryAt.mpr hx, fun i hi => (hitem.iters i hi).imp_right ?_,
            fun k hk => hchange.sameAt hk⟩
          rintro ⟨x, hx, hof, hiter⟩ y hy
          rw [hold] at hof
          rw [hy.eq hx (hof.primary.trans hkey)] at hiter
          exact hiter.symm
        refine (modifyIndices_spec hp hstart fun i hi => ?_).mono ?_ ?_
        · obtain ⟨x, hx, -⟩ := h.db.indexed he hholds hi
          rw [← hholds.2, hkey] at hx
          exact ⟨x, hx⟩
        · rintro _ _ ⟨iters, c', rfl, hmoved⟩
          rw [← hkey]
          exact hmoved.modified h hp hold hcode hkey he hholds hitr
        · rintro _ s' ⟨hflag, hindices⟩
          exact ⟨hflag, fun _ hzero => absurd hzero hindices⟩
      · -- the chain takes an update that the payer is billed for
        have hsome := d.update_bills (m.pack new) he hbills
        have hnone : m.db.updateI64 s.chain e.itr payer (m.pack new) = none := hitr ▸ hrefused
        rw [hnone] at hsome
        cases hsome
    · rw [meets_bind, meets_check_neg hkey]
      exact ⟨rfl, fun _ _ _ => hkey⟩
  · rw [meets_bind, meets_check_neg hcode]
    exact ⟨rfl, fun h => absurd h hcode⟩

end Modify

/-! ## `erase` -/

/-- Once a discarded item was read, no further read adds to it. -/
lemma meets_readItem_of_read {Q : Item T → State C T → Prop} {E : String → State C T → Prop}
    (h : s.readDiscarded = true) : Meets (readItem p) s Q E ↔ Q (s.items p) s := by
  have hstate : ({ s with readDiscarded := s.readDiscarded || !decide (s.Live p) } : State C T) =
      s := by
    rw [h, Bool.true_or, ← h]
  unfold readItem
  rw [meets_bind, meets_get, meets_bind, meets_modify, meets_pure, hstate]

/-- A read of an item that is not live is noted. -/
lemma meets_readItem_discarded {Q : Item T → State C T → Prop} {E : String → State C T → Prop}
    (h : ¬ s.Live p) :
    Meets (readItem p) s Q E ↔ Q (s.items p) { s with readDiscarded := true } := by
  have hstate : ({ s with readDiscarded := s.readDiscarded || !decide (s.Live p) } : State C T) =
      { s with readDiscarded := true } := by
    rw [decide_eq_false h, Bool.not_false, Bool.or_true]
  unfold readItem
  rw [meets_bind, meets_get, meets_bind, meets_modify, meets_pure, hstate]

/-- The vector without one of its entries. -/
def without (s : State C T) (ptr : ItemPtr) : State C T :=
  { s with itemsVector := (s.itemsVector.reverse.erase ptr).reverse }

section Without

variable {ptr q : ItemPtr}

lemma mem_without (h : CacheOk m d s) :
    q ∈ (without s ptr).itemsVector ↔ q ∈ s.itemsVector ∧ q ≠ ptr := by
  have hnodup : s.itemsVector.reverse.Nodup := List.nodup_reverse.mpr h.nodup.of_map
  unfold without
  rw [List.mem_reverse, hnodup.mem_erase_iff, List.mem_reverse, and_comm]

lemma not_live_without (h : CacheOk m d s) (hptr : ptr ∈ s.itemsVector) :
    ¬ (without s ptr).Live ptr.item := by
  rintro ⟨q, hq, hitem⟩
  obtain ⟨hmem, hne⟩ := (mem_without h).mp hq
  refine hne (h.unique q hmem ptr hptr ?_)
  rw [h.primaryKey q hmem, h.primaryKey ptr hptr, hitem]

lemma live_without (h : CacheOk m d s) (hp : s.Live p) (hne : p ≠ ptr.item) :
    (without s ptr).Live p := by
  obtain ⟨q, hq, rfl⟩ := hp
  refine ⟨q, (mem_without h).mpr ⟨hq, ?_⟩, rfl⟩
  rintro rfl
  exact hne rfl

lemma CacheOk.without (h : CacheOk m d s) (ptr : ItemPtr) : CacheOk m d (without s ptr) where
  allocated q hq := h.allocated q ((mem_without h).mp hq).1
  nodup := by
    have hsub : List.Sublist (Contracts.without s ptr).itemsVector s.itemsVector := by
      unfold Contracts.without
      rw [← List.reverse_sublist, List.reverse_reverse]
      exact List.erase_sublist
    exact List.Nodup.sublist (hsub.map ItemPtr.item) h.nodup
  primaryKey q hq := h.primaryKey q ((mem_without h).mp hq).1
  primaryItr q hq := h.primaryItr q ((mem_without h).mp hq).1
  item q hq := h.item q ((mem_without h).mp hq).1
  unique q hq q' hq' := h.unique q ((mem_without h).mp hq).1 q' ((mem_without h).mp hq').1

end Without

/-- What was read before is nothing to the cache. -/
lemma CacheOk.noted (h : CacheOk m d s) {read : Bool} :
    CacheOk m d { s with readDiscarded := read } :=
  ⟨h.allocated, h.nodup, h.primaryKey, h.primaryItr, h.item, h.unique⟩

/-- Below `n` the indices have nothing more at the key, from there on what they had. -/
structure RemovedUpTo (m : MultiIndex C T κ ρ) (d : OrderedMaps m.db m.rank) (pk : ℕ) (c : C)
    (n : ℕ) (c' : C) : Prop where
  row : RowAt d c' pk none
  removed : ∀ i < n, EntryAt d c' i pk none
  left : ∀ i, n ≤ i → i < m.indices → ∀ x, EntryAt d c i pk (some x) → EntryAt d c' i pk (some x)
  same : ∀ k, k ≠ pk → SameAt d c c' k

/-- The handle of the entry is the item's, or is looked up under its primary key. -/
lemma eraseItr_spec {c : C} {n : ℕ} {x : Entry (IndexKey ρ) (Reference κ)} (s1 : State C T)
    (hread : s1.readDiscarded = true) (hpk : m.primaryKey (s1.items p).obj = pk)
    (hiters : (s1.items p).iters n = -1 ∨ (s1.items p).iters n = x.itr)
    (hx : EntryAt d c n pk (some x)) :
    Returns (m.eraseItr p n) { s1 with chain := c } fun itr s' =>
      itr = x.itr ∧ s' = { s1 with chain := c } := by
  have hread' : ({ s1 with chain := c } : State C T).readDiscarded = true := hread
  unfold eraseItr Returns
  rw [meets_bind, meets_readItem_of_read hread']
  by_cases hneg : (s1.items p).iters n < 0
  · rw [if_pos hneg, meets_bind, meets_readItem_of_read hread', meets_bind, meets_get, meets_pure]
    refine ⟨?_, rfl⟩
    show m.db.idxFindPrimary c n (m.primaryKey (s1.items p).obj) = x.itr
    rw [hpk]
    exact hx.findPrimary
  · rw [if_neg hneg, meets_pure]
    refine ⟨?_, rfl⟩
    rcases hiters with hunset | hitr
    · exact absurd (by omega) hneg
    · exact hitr

/-- One index of the loop. -/
lemma eraseIndex_spec {c c' : C} {n : ℕ} {x : Entry (IndexKey ρ) (Reference κ)} (s1 : State C T)
    (hread : s1.readDiscarded = true) (hpk : m.primaryKey (s1.items p).obj = pk)
    (hiters : (s1.items p).iters n = -1 ∨ (s1.items p).iters n = x.itr)
    (h : RemovedUpTo m d pk c n c') (hn : n < m.indices) (hx : EntryAt d c n pk (some x)) :
    Returns (m.eraseIndex p n) { s1 with chain := c' } fun _ s' =>
      ∃ c'', s' = { s1 with chain := c'' } ∧ RemovedUpTo m d pk c (n + 1) c'' := by
  have hleft := h.left n le_rfl hn x hx
  obtain ⟨c'', hremove, hentry, hchange⟩ := idxRemove_spec hleft
  unfold eraseIndex
  refine (eraseItr_spec s1 hread hpk hiters hleft).bind ?_
  rintro itr _ ⟨rfl, rfl⟩
  rw [if_pos (d.entries_itr c' n x hleft.mem)]
  refine intrinsicUnit_meets (fun c1 hc1 => ?_) fun hnone => ?_
  · have heq : c1 = c'' := Option.some.inj (hc1.symm.trans hremove)
    subst heq
    refine ⟨c1, rfl, hchange.rowAt.mpr h.row, fun i hi => ?_, fun i hi hlt y hy => ?_, fun k hk => ?_⟩
    · by_cases hin : i = n
      · subst hin
        exact hentry
      · exact (hchange.entryAt hin).mpr (h.removed i (by omega))
    · exact (hchange.entryAt (by omega)).mpr (h.left i (by omega) hlt y hy)
    · exact (h.same k hk).trans (hchange.sameAt hk)
  · rw [show m.db.idxRemove c' n x.itr = some c'' from hremove] at hnone
    cases hnone

/-- All indices of the loop. -/
lemma eraseIndices_spec {c c' : C} (s1 : State C T) (hread : s1.readDiscarded = true)
    (hpk : m.primaryKey (s1.items p).obj = pk) (h : RemovedUpTo m d pk c 0 c')
    (hentries : ∀ i < m.indices, ∃ x, EntryAt d c i pk (some x) ∧
      ((s1.items p).iters i = -1 ∨ (s1.items p).iters i = x.itr)) :
    Returns (forM (List.range m.indices) (m.eraseIndex p)) { s1 with chain := c' } fun _ s' =>
      ∃ c'', s' = { s1 with chain := c'' } ∧ RemovedUpTo m d pk c m.indices c'' := by
  refine Meets.forRange (fun n (s' : State C T) => ∃ c'', s' = { s1 with chain := c'' } ∧
    RemovedUpTo m d pk c n c'') ⟨c', rfl, h⟩ ?_
  rintro n hn _ ⟨c'', rfl, hremoved⟩
  obtain ⟨x, hx, hiters⟩ := hentries n hn
  exact eraseIndex_spec s1 hread hpk hiters hremoved hn hx

/-- `erase` has returned. -/
structure Erased (m : MultiIndex C T κ ρ) (d : OrderedMaps m.db m.rank) (pk : ℕ)
    (s s' : State C T) : Prop where
  inv : Inv m d s'
  changes : Changes m d pk s s'
  after : Slice m d s'.chain pk none
  nextPrimaryKey : s'.nextPrimaryKey = s.nextPrimaryKey
  readDiscarded : s'.readDiscarded = true

/-- When all entries are gone, the key is empty and no item of the cache has it. -/
lemma RemovedUpTo.erased {ptr : ItemPtr} {c' : C} (h : Inv m d s) (hptr : ptr ∈ s.itemsVector)
    (hpk : m.primaryKey (s.items ptr.item).obj = pk)
    (hremoved : RemovedUpTo m d pk s.chain m.indices c') :
    Erased m d pk s { without s ptr with chain := c', readDiscarded := true } := by
  have hslice : Slice m d c' pk none := ⟨hremoved.row, hremoved.removed⟩
  have hother : ∀ q, (without s ptr).Live q → m.primaryKey (s.items q).obj ≠ pk := by
    intro q hq heq
    obtain ⟨q', hq', rfl⟩ := hq
    have hlive : s.Live q'.item := ⟨q', ((mem_without h.cache).mp hq').1, rfl⟩
    have hsame := h.cache.live_unique hlive ⟨ptr, hptr, rfl⟩ (heq.trans hpk.symm)
    exact not_live_without h.cache hptr (hsame ▸ ⟨q', hq', rfl⟩)
  have hcache : CacheOk m d { without s ptr with chain := c' } :=
    (h.cache.without ptr).onChain fun q hq => hremoved.same _ (hother q hq)
  constructor
  case inv => exact ⟨h.db.changed hremoved.same hslice, hcache.noted⟩
  case changes =>
    refine ⟨hremoved.same, rfl, fun q hq hne => ⟨live_without h.cache hq ?_, rfl⟩⟩
    rintro rfl
    exact hne hpk
  case after => exact hslice
  case nextPrimaryKey => rfl
  case readDiscarded => rfl

theorem eraseObj_spec (h : Inv m d s) (hp : s.Live p) :
    Meets (m.eraseObj p) s
      (fun _ s' => Erased m d (m.primaryKey (s.items p).obj) s s' ∧ m.code = m.receiver)
      fun _ s' => s' = s ∧ m.code ≠ m.receiver := by
  have hitem := h.cache.itemOk hp
  obtain ⟨e, he, hholds, hitr⟩ := h.cache.row hp
  unfold eraseObj
  rw [meets_bind, meets_readItem hp, meets_bind, meets_get, meets_bind, meets_check_pos hitem.idx]
  by_cases hcode : m.code = m.receiver
  · rw [meets_bind, meets_check_pos hcode, meets_bind, meets_get]
    generalize hpk : m.primaryKey (s.items p).obj = pk
    refine (findItem_spec h).bind ?_
    rintro o s' ⟨heq, ho⟩
    subst s'
    cases o with
    | none =>
      obtain ⟨ptr, hptr, -, hkey, -⟩ := h.cache.live hp
      exact absurd (hkey.trans hpk) (ho ptr hptr)
    | some ptr =>
      obtain ⟨hptr, e', hfind, hholds'⟩ := ho
      -- the entry found is that of the item itself
      have hptrp : ptr.item = p := by
        refine h.cache.live_unique ⟨ptr, hptr, rfl⟩ hp ?_
        rw [hpk, hholds'.2, (mem_of_lookup hfind).2]
      have hdead : ¬ (without s ptr).Live p := hptrp ▸ not_live_without h.cache hptr
      have hrow : RowAt d s.chain pk (some e) := by
        rw [← hpk, hholds.2]
        exact rowAt_of_mem he
      obtain ⟨c1, hremove, hrow1, hchange⟩ := remove_spec (d := d) hrow
      unfold MultiIndex.discard
      rw [meets_bind, meets_modify]
      show Meets _ (without s ptr) _ _
      -- the handle is read from the item that has just been discarded
      rw [meets_bind, meets_readItem_discarded hdead, meets_bind]
      refine intrinsicUnit_meets (fun c2 hc2 => ?_) fun hnone => ?_
      · have heq : c2 = c1 := by
          have hc2' : m.db.removeI64 s.chain (s.items p).primaryItr = some c2 := hc2
          rw [hitr, hremove] at hc2'
          exact (Option.some.inj hc2').symm
        subst heq
        have hstart : RemovedUpTo m d pk s.chain 0 c2 :=
          ⟨hrow1, fun i hi => absurd hi (Nat.not_lt_zero i),
            fun i _ _ x hx => hchange.entryAt.mpr hx, fun k hk => hchange.sameAt hk⟩
        -- the handles that the item has are those of the row's own entries
        have hentries : ∀ i < m.indices, ∃ x, EntryAt d s.chain i pk (some x) ∧
            ((s.items p).iters i = -1 ∨ (s.items p).iters i = x.itr) := by
          intro i hi
          obtain ⟨x, hx, -⟩ := h.db.indexed he hholds hi
          rw [← hholds.2, hpk] at hx
          refine ⟨x, hx, (hitem.iters i hi).imp_right ?_⟩
          rintro ⟨y, hy, hofy, hiter⟩
          rw [← hx.eq hy (hofy.primary.trans hpk)]
          exact hiter.symm
        refine (eraseIndices_spec { without s ptr with readDiscarded := true } rfl hpk hstart
          hentries).meets.mono ?_ fun _ _ hfalse => hfalse
        · rintro _ _ ⟨c', rfl, hremoved⟩
          exact ⟨hremoved.erased h hptr (hptrp ▸ hpk), hcode⟩
      · have hnone' : m.db.removeI64 s.chain (s.items p).primaryItr = none := hnone
        rw [hitr, hremove] at hnone'
        cases hnone'
  · rw [meets_bind, meets_check_neg hcode]
    exact ⟨rfl, hcode⟩

/-! ### Through an iterator -/

lemma Erased.steady (h : Steady m d s s') (he : Erased m d pk s' s'') : Erased m d pk s s'' where
  inv := he.inv
  changes := h.toKeeps.changes he.changes
  after := he.after
  nextPrimaryKey := he.nextPrimaryKey.trans h.nextPrimaryKey
  readDiscarded := he.readDiscarded

/-- What is behind an entry has another key. -/
lemma key_ne_of_upperBound {κ' β : Type} [LinearOrder κ'] {t : Table κ' β} {k : κ'}
    {y : Entry κ' β} (h : OrderedTable.upperBound t k = some y) : y.key ≠ k := by
  have hk := List.find?_some h
  rw [decide_eq_true_iff] at hk
  exact ne_of_gt hk

theorem erase_spec {e : Entry ℕ Row} (h : Inv m d s) (hp : PointsTo m d s (some p) (some e)) :
    Meets (m.erase (some p)) s
      (fun it s' => Erased m d e.key s s' ∧ m.code = m.receiver ∧
        PointsTo m d s' it (OrderedTable.upperBound (d.rows s.chain) e.key))
      fun _ s' => Steady m d s s' ∧ m.code ≠ m.receiver := by
  obtain ⟨-, hlive, hholds⟩ := id hp
  unfold MultiIndex.erase
  rw [meets_bind, meets_check_pos (by simp), meets_bind, meets_deref]
  refine (next_spec h hp).bind ?_
  rintro it s1 ⟨hsteady, hpoints⟩
  have hobj := hsteady.items p hlive
  have herase := eraseObj_spec hsteady.inv (hsteady.live p hlive)
  rw [hobj, hholds.2] at herase
  rw [meets_bind]
  refine herase.mono ?_ ?_
  · rintro _ s2 ⟨herased, hcode⟩
    rw [meets_pure]
    exact ⟨herased.steady hsteady, hcode, herased.changes.pointsTo hpoints
      fun e' he' => key_ne_of_upperBound he'⟩
  · rintro _ s2 ⟨heq, hcode⟩
    subst s2
    exact ⟨hsteady, hcode⟩

theorem indexErase_spec {i : ℕ} {x : Entry (IndexKey ρ) (Reference κ)} (h : Inv m d s)
    (hi : i < m.indices) (hp : PointsToEntry m d i s (some p) (some x)) :
    Meets (Index.erase m i (some p)) s
      (fun it s' => Erased m d x.key.primary s s' ∧ m.code = m.receiver ∧
        PointsToEntry m d i s' it (OrderedTable.upperBound (d.entries s.chain i) x.key))
      fun _ s' => Steady m d s s' ∧ m.code ≠ m.receiver := by
  obtain ⟨hx, hlive, hof⟩ := id hp
  unfold Index.erase
  rw [meets_bind, meets_check_pos (by simp), meets_bind, meets_deref]
  refine (indexNext_spec h hi hp).bind ?_
  rintro it s1 ⟨hsteady, hpoints⟩
  have hobj := hsteady.items p hlive
  have herase := eraseObj_spec hsteady.inv (hsteady.live p hlive)
  rw [hobj, ← hof.primary] at herase
  rw [meets_bind]
  refine herase.mono ?_ ?_
  · rintro _ s2 ⟨herased, hcode⟩
    rw [meets_pure]
    refine ⟨herased.steady hsteady, hcode, herased.changes.pointsToEntry hpoints
      fun y hy hkey => ?_⟩
    -- a row has one entry, and this is another
    obtain ⟨-, -, -, -, -, -, hat⟩ := h.db.owned hi hx
    refine key_ne_of_upperBound hy (congrArg Entry.key (hat.eq (List.mem_of_find?_eq_some hy) hkey))
  · rintro _ s2 ⟨heq, hcode⟩
    subst s2
    exact ⟨hsteady, hcode⟩

end UosioCdt.Contracts
