import UosioCdt.Contracts.ListChain

/-!
# What holds in every run of a `multi_index` object

The cache and the indices agree with the table, and the next free key is known. Two things fail: an
`erase` reads the item it has discarded, and a `modify` leaves the payer of an index entry as it was
when the secondary key has not changed.
-/

namespace UosioCdt.Contracts

open MultiIndex OrderedTable Aborting

variable {C T κ ρ : Type} [LinearOrder ρ]
variable {m : MultiIndex C T κ ρ} {d : OrderedMaps m.db m.rank}
variable {start s s' : State C T} {past : List (State C T)}

/-! ## The next primary key -/

/-- A row whose key leaves no key free has been in the table. -/
def Exhausted (d : OrderedMaps m.db m.rank) (states : List (State C T)) : Prop :=
  ∃ s ∈ states, ∃ e ∈ d.rows s.chain, 2 ^ 64 - 3 ≤ e.key

/-- A next primary key is above all rows, or says that there is none. -/
def NextOk (d : OrderedMaps m.db m.rank) (states : List (State C T)) (c : C) (next : ℕ) : Prop :=
  (next < noAvailablePrimaryKey ∧ ∀ e ∈ d.rows c, e.key < next) ∨
    (next = noAvailablePrimaryKey ∧ Exhausted d states)

lemma firstPrimaryKey_ok (hs : s ∈ past) : NextOk d past s.chain (firstPrimaryKey (d.rows s.chain)) := by
  unfold firstPrimaryKey
  cases hlast : (d.rows s.chain).getLast? with
  | none =>
    rw [List.getLast?_eq_none_iff] at hlast
    refine .inl ⟨by decide, fun e he => ?_⟩
    rw [hlast] at he
    cases he
  | some e =>
    have he := List.mem_of_getLast? hlast
    have hle : ∀ x ∈ d.rows s.chain, x.key ≤ e.key := fun x hx =>
      (d.rows_sorted s.chain).le_getLast hlast hx
    by_cases hkey : 2 ^ 64 - 3 ≤ e.key
    · refine .inr ⟨?_, s, hs, e, he, hkey⟩
      show (if e.key ≥ noAvailablePrimaryKey then noAvailablePrimaryKey else e.key + 1) = _
      unfold noAvailablePrimaryKey
      split <;> omega
    · refine .inl ?_
      have hnext : (if e.key ≥ noAvailablePrimaryKey then noAvailablePrimaryKey else e.key + 1) =
          e.key + 1 := by
        unfold noAvailablePrimaryKey
        exact if_neg (by omega)
      simp only [hnext]
      unfold noAvailablePrimaryKey
      exact ⟨by omega, fun x hx => Nat.lt_succ_of_le (hle x hx)⟩

/-- A written row is counted. -/
lemma NextOk.raised {pk next : ℕ} (h : NextOk d past s.chain next)
    (hrow : ∃ e ∈ d.rows s'.chain, e.key = pk)
    (hrows : ∀ e ∈ d.rows s'.chain, e.key = pk ∨ e ∈ d.rows s.chain) :
    NextOk d (s' :: past) s'.chain (raised next pk) := by
  obtain ⟨e, he, rfl⟩ := hrow
  unfold Contracts.raised
  rcases h with ⟨hlt, hkeys⟩ | ⟨heq, s0, hs0, hexhausted⟩
  · by_cases hge : e.key ≥ next
    · rw [if_pos hge]
      by_cases hkey : 2 ^ 64 - 3 ≤ e.key
      · refine .inr ⟨?_, s', List.mem_cons_self, e, he, hkey⟩
        unfold noAvailablePrimaryKey
        split <;> omega
      · refine .inl ?_
        unfold noAvailablePrimaryKey
        rw [if_neg (by omega)]
        refine ⟨by omega, fun x hx => ?_⟩
        rcases hrows x hx with hxe | hx
        · omega
        · have := hkeys x hx
          omega
    · rw [if_neg hge]
      refine .inl ⟨hlt, fun x hx => ?_⟩
      rcases hrows x hx with hxe | hx
      · omega
      · exact hkeys x hx
  · refine .inr ⟨?_, s0, List.mem_cons_of_mem _ hs0, hexhausted⟩
    rw [heq]
    split <;> rfl

/-- A row written before the first question leaves the key unset, unless it is the very last one. -/
lemma raised_unset {pk : ℕ} (hpk : pk < 2 ^ 64) (hrow : ∃ e ∈ d.rows s'.chain, e.key = pk) :
    raised unsetNextPrimaryKey pk = unsetNextPrimaryKey ∨
      NextOk d (s' :: past) s'.chain (raised unsetNextPrimaryKey pk) := by
  obtain ⟨e, he, rfl⟩ := hrow
  unfold Contracts.raised unsetNextPrimaryKey noAvailablePrimaryKey
  by_cases hlast : e.key ≥ 2 ^ 64 - 1
  · rw [if_pos hlast, if_pos (by omega)]
    exact .inr (.inr ⟨rfl, s', List.mem_cons_self, e, he, by omega⟩)
  · rw [if_neg hlast]
    exact .inl rfl

lemma NextOk.mono {c : C} {next : ℕ} {states : List (State C T)} (h : NextOk d past s.chain next)
    (hpast : ∀ s ∈ past, s ∈ states) (hrows : ∀ e ∈ d.rows c, e ∈ d.rows s.chain) :
    NextOk d states c next := by
  refine h.imp (fun ⟨hlt, hkeys⟩ => ⟨hlt, fun e he => hkeys e (hrows e he)⟩) ?_
  rintro ⟨heq, s0, hs0, hexhausted⟩
  exact ⟨heq, s0, hpast s0 hs0, hexhausted⟩

/-! ## Billing -/

section Billing

variable {c c' : C} {i pk payer : ℕ} {e : Entry ℕ Row} {x : Entry (IndexKey ρ) (Reference κ)}

/-- The row at a key is billed to an account. -/
def RowBilled (d : OrderedMaps m.db m.rank) (c : C) (pk payer : ℕ) : Prop :=
  ∃ e, RowAt d c pk (some e) ∧ e.val.payer = payer

/-- The entry of an index at a primary key is billed to an account. -/
def EntryBilled (d : OrderedMaps m.db m.rank) (c : C) (i pk payer : ℕ) : Prop :=
  ∃ x, EntryAt d c i pk (some x) ∧ x.val.payer = payer

/-- A payer pays for the whole object, and `same_payer` leaves everything as it was. -/
def BillsWhole (m : MultiIndex C T κ ρ) (d : OrderedMaps m.db m.rank) (pk payer : ℕ) (c c' : C) :
    Prop :=
  (payer ≠ samePayer →
    RowBilled d c' pk payer ∧ ∀ i < m.indices, EntryBilled d c' i pk payer) ∧
  (payer = samePayer → ∀ k account, (RowBilled d c' k account ↔ RowBilled d c k account) ∧
    ∀ i < m.indices, (EntryBilled d c' i k account ↔ EntryBilled d c i k account))

lemma RowAt.billed_iff {account : ℕ} (h : RowAt d c pk (some e)) :
    RowBilled d c pk account ↔ e.val.payer = account := by
  constructor
  · rintro ⟨e', he', rfl⟩
    rw [h.eq he'.mem he'.key]
  · intro hpayer
    exact ⟨e, h, hpayer⟩

lemma EntryAt.billed_iff {account : ℕ} (h : EntryAt d c i pk (some x)) :
    EntryBilled d c i pk account ↔ x.val.payer = account := by
  constructor
  · rintro ⟨y, hy, rfl⟩
    rw [h.eq hy.mem hy.primary]
  · intro hpayer
    exact ⟨x, h, hpayer⟩

lemma SameAt.rowBilled {account : ℕ} (h : SameAt d c c' pk) :
    RowBilled d c' pk account ↔ RowBilled d c pk account :=
  exists_congr fun _ => and_congr_left fun _ => ⟨h.symm.rowAt, h.rowAt⟩

lemma SameAt.entryBilled {account : ℕ} (h : SameAt d c c' pk) :
    EntryBilled d c' i pk account ↔ EntryBilled d c i pk account :=
  exists_congr fun _ => and_congr_left fun _ => ⟨h.symm.entryAt, h.entryAt⟩

lemma billed_same {old : ℕ} : billed samePayer old = old := if_pos rfl

lemma billed_other {old : ℕ} (h : payer ≠ samePayer) : billed payer old = payer := if_neg h

/-- With `same_payer` the entries keep their payers, whether they move or not. -/
lemma movedEntry_payer_same [DecidableEq κ] {old new : T} :
    (movedEntry m old new samePayer i x).val.payer = x.val.payer := by
  unfold movedEntry
  split
  · rfl
  · exact billed_same

/-- An entry is billed to another payer if it moves, or was billed to it before. -/
lemma movedEntry_payer_iff [DecidableEq κ] {old new : T} (h : payer ≠ samePayer) :
    (movedEntry m old new payer i x).val.payer = payer ↔
      (m.extractSecondaryKey i old = m.extractSecondaryKey i new → x.val.payer = payer) := by
  unfold movedEntry
  split
  · rename_i hsame
    exact ⟨fun hpayer _ => hpayer, fun himp => himp hsame⟩
  · rename_i hmoved
    exact ⟨fun _ hsame => absurd hsame hmoved, fun _ => billed_other h⟩

lemma Modified.billsWhole_iff [DecidableEq κ] {p : ℕ} {old new : T} (h : Inv m d s)
    (hp : s.Live p) (hold : (s.items p).obj = old) (hmodified : Modified m d p payer old new s s') :
    BillsWhole m d (m.primaryKey old) payer s.chain s'.chain ↔
      (payer = samePayer ∨ ∀ i < m.indices,
        m.extractSecondaryKey i old = m.extractSecondaryKey i new →
          EntryBilled d s.chain i (m.primaryKey old) payer) := by
  obtain ⟨e, he, hholds, -⟩ := h.cache.row hp
  rw [hold] at hholds
  have hrow : RowAt d s.chain (m.primaryKey old) (some e) := hholds.2 ▸ rowAt_of_mem he
  have hrow' := hmodified.row e hrow
  have hentry : ∀ i < m.indices, ∃ x, EntryAt d s.chain i (m.primaryKey old) (some x) ∧
      EntryAt d s'.chain i (m.primaryKey old) (some (movedEntry m old new payer i x)) := by
    intro i hi
    obtain ⟨x, hx, -⟩ := h.db.indexed he hholds hi
    rw [← hholds.2] at hx
    exact ⟨x, hx, hmodified.entries i hi x hx⟩
  unfold BillsWhole
  by_cases hsame : payer = samePayer
  · subst hsame
    refine ⟨fun _ => .inl rfl, fun _ => ⟨fun hne => absurd rfl hne, fun _ k account => ?_⟩⟩
    by_cases hk : k = m.primaryKey old
    · subst hk
      refine ⟨?_, fun i hi => ?_⟩
      · rw [hrow'.billed_iff, hrow.billed_iff, billed_same]
      · obtain ⟨x, hx, hx'⟩ := hentry i hi
        rw [hx'.billed_iff, hx.billed_iff, movedEntry_payer_same]
    · have hsameAt := hmodified.changes.same k hk
      exact ⟨hsameAt.rowBilled, fun i _ => hsameAt.entryBilled⟩
  · have hmoved : ∀ i < m.indices, (EntryBilled d s'.chain i (m.primaryKey old) payer ↔
        (m.extractSecondaryKey i old = m.extractSecondaryKey i new →
          EntryBilled d s.chain i (m.primaryKey old) payer)) := by
      intro i hi
      obtain ⟨x, hx, hx'⟩ := hentry i hi
      rw [hx'.billed_iff, hx.billed_iff]
      exact movedEntry_payer_iff hsame
    constructor
    · rintro ⟨hbills, -⟩
      exact .inr fun i hi => (hmoved i hi).mp ((hbills hsame).2 i hi)
    · intro hcond
      have hkept := hcond.resolve_left hsame
      refine ⟨fun _ => ⟨hrow'.billed_iff.mpr (billed_other hsame), fun i hi => ?_⟩,
        fun heq => absurd heq hsame⟩
      exact (hmoved i hi).mpr (hkept i hi)

end Billing

/-! ## The cache -/

variable [Inhabited T] [DecidableEq κ]

/-- In every run the cache is a part of the table, and `find` has what the table has. -/
theorem run_cache_coherent (hstart : Starts m d start) (hrun : Run m start (s :: past)) :
    (s.itemsVector.map fun ptr => m.primaryKey (s.items ptr.item).obj).Nodup ∧
    (∀ ptr ∈ s.itemsVector, ∃ e ∈ d.rows s.chain,
      m.unpack e.val.data = .ok (s.items ptr.item).obj ∧
      m.primaryKey (s.items ptr.item).obj = e.key ∧ ptr.primaryKey = e.key ∧
      (s.items ptr.item).primaryItr = e.itr ∧ ptr.primaryItr = e.itr) ∧
    ∀ pk, Returns (m.find pk) s fun it s' => s'.chain = s.chain ∧
      (it ≠ none ↔ ∃ e ∈ d.rows s.chain, e.key = pk) ∧
      ∀ p, it = some p → m.primaryKey (s'.items p).obj = pk ∧
        ∃ e ∈ d.rows s.chain, e.key = pk ∧ m.unpack e.val.data = .ok (s'.items p).obj := by
  have h := hrun.inv hstart
  refine ⟨?_, fun ptr hptr => ?_, fun pk => ?_⟩
  · refine List.Nodup.map_on (fun ptr hptr ptr' hptr' hkey => ?_) h.cache.nodup.of_map
    refine h.cache.unique ptr hptr ptr' hptr' ?_
    rw [h.cache.primaryKey ptr hptr, h.cache.primaryKey ptr' hptr', hkey]
  · obtain ⟨e, he, hholds, hitr⟩ := h.cache.row ⟨ptr, hptr, rfl⟩
    exact ⟨e, he, hholds.1, hholds.2, (h.cache.primaryKey ptr hptr).trans hholds.2, hitr,
      (h.cache.primaryItr ptr hptr).trans hitr⟩
  · refine (find_spec h pk).mono ?_
    rintro it s' ⟨hsteady, hpoints⟩
    refine ⟨hsteady.chain, ?_⟩
    cases hfind : lookup (d.rows s.chain) pk with
    | none =>
      rw [hfind] at hpoints
      cases it with
      | some p => exact hpoints.elim
      | none =>
        refine ⟨⟨fun hne => absurd rfl hne, ?_⟩, fun p hp => by cases hp⟩
        rintro ⟨e, he, rfl⟩
        rw [lookup_eq_some (d.rows_sorted s.chain) he] at hfind
        cases hfind
    | some e =>
      obtain ⟨he, hkey⟩ := mem_of_lookup hfind
      rw [hfind] at hpoints
      cases it with
      | none => exact hpoints.elim
      | some p =>
        obtain ⟨-, -, hholds⟩ := hpoints
        refine ⟨⟨fun _ => ⟨e, he, hkey⟩, fun _ => Option.some_ne_none p⟩, ?_⟩
        intro q hq
        cases hq
        exact ⟨hholds.2.trans hkey, e, he, hkey, hholds.1⟩

/-- The row that was written is found, from the cache. -/
theorem oneRow_cache_coherent :
    (oneRow.itemsVector.map fun ptr => pairs.primaryKey (oneRow.items ptr.item).obj).Nodup ∧
      Returns (pairs.find 3) oneRow fun it _ =>
        it ≠ none ↔ ∃ e ∈ pairs.maps.rows oneRow.chain, e.key = 3 := by
  have h := run_cache_coherent pairs_starts oneRow_run
  exact ⟨h.1, (h.2.2 3).mono fun _ _ hfind => hfind.2.1⟩

/-! ## The indices -/

/-- In every run each index has one entry for each row, under the key of the row's object. -/
theorem run_indices_consistent (hstart : Starts m d start) (hrun : Run m start (s :: past)) {i : ℕ}
    (hi : i < m.indices) :
    (∀ e ∈ d.rows s.chain, ∃ obj, m.unpack e.val.data = .ok obj ∧
      ∃ x ∈ d.entries s.chain i, x.key.primary = e.key ∧
        x.val.secondary = m.extractSecondaryKey i obj ∧
        ∀ y ∈ d.entries s.chain i, y.key.primary = e.key → y = x) ∧
    (∀ x ∈ d.entries s.chain i, ∃ e ∈ d.rows s.chain, ∃ obj, m.unpack e.val.data = .ok obj ∧
      x.key.primary = e.key ∧ x.val.secondary = m.extractSecondaryKey i obj) ∧
    (∀ ptr ∈ s.itemsVector, (s.items ptr.item).iters i = -1 ∨
      ∃ x ∈ d.entries s.chain i, x.key.primary = m.primaryKey (s.items ptr.item).obj ∧
        (s.items ptr.item).iters i = x.itr) := by
  have h := hrun.inv hstart
  refine ⟨fun e he => ?_, fun x hx => ?_, fun ptr hptr => ?_⟩
  · obtain ⟨obj, hholds, -⟩ := h.db.row he
    obtain ⟨x, hx, hof⟩ := h.db.indexed he hholds hi
    exact ⟨obj, hholds.1, x, hx.mem, hx.primary, hof.2, fun y hy hkey => hx.eq hy hkey⟩
  · obtain ⟨e, obj, he, hholds, hkey, hof, -⟩ := h.db.owned hi hx
    exact ⟨e, he, obj, hholds.1, hkey.symm, hof.2⟩
  · refine ((h.cache.item ptr hptr).iters i hi).imp_right ?_
    rintro ⟨x, hx, hof, hitr⟩
    exact ⟨x, hx, hof.primary, hitr.symm⟩

/-- The row that was written has its entry, and the entry its row. -/
theorem oneRow_indices_consistent :
    (∀ e ∈ pairs.maps.rows oneRow.chain, ∃ obj, pairs.unpack e.val.data = .ok obj ∧
      ∃ x ∈ pairs.maps.entries oneRow.chain 0, x.key.primary = e.key ∧
        x.val.secondary = pairs.extractSecondaryKey 0 obj ∧
        ∀ y ∈ pairs.maps.entries oneRow.chain 0, y.key.primary = e.key → y = x) ∧
    ∀ x ∈ pairs.maps.entries oneRow.chain 0, ∃ e ∈ pairs.maps.rows oneRow.chain, ∃ obj,
      pairs.unpack e.val.data = .ok obj ∧ x.key.primary = e.key ∧
        x.val.secondary = pairs.extractSecondaryKey 0 obj := by
  have hindex : 0 < pairs.indices := by decide
  have h := run_indices_consistent pairs_starts oneRow_run hindex
  exact ⟨h.1, h.2.1⟩

/-! ## Reads of discarded items -/

/-- Every item that the call reads from `s` is live when it is read. -/
def ReadsLive (m : MultiIndex C T κ ρ) (c : Call T κ) (s : State C T) : Prop :=
  (after (c.exec m { s with readDiscarded := false })).readDiscarded = false

/-- In every run a call reads live items only, unless it is an `erase` that its checks let through:
that one reads the item it has discarded. -/
theorem run_readsLive_iff (hstart : Starts m d start) (hrun : Run m start (s :: past))
    {c : Call T κ} (hvalid : c.Valid m s.toCache) :
    ReadsLive m c s ↔ ¬ (c.IsErase ∧ m.code = m.receiver) := by
  have hinv := hrun.inv hstart
  have h : Inv m d { s with readDiscarded := false } := ⟨hinv.db, hinv.cache.noted⟩
  unfold ReadsLive
  by_cases hc : c.IsErase
  · have hspec := Call.exec_erase_spec h hvalid hc
    by_cases hcode : m.code = m.receiver
    · have hread : (after (c.exec m { s with readDiscarded := false })).readDiscarded = true :=
        (hspec.mono (fun _ _ hq => hq.2.2) fun _ _ he => absurd hcode he.1).after
      rw [hread]
      exact ⟨fun hfalse => Bool.noConfusion hfalse, fun hn => absurd ⟨hc, hcode⟩ hn⟩
    · refine ⟨fun _ hn => hcode hn.2, fun _ => ?_⟩
      exact (hspec.mono (fun _ _ hq => absurd hq.2.1 hcode) fun _ _ he => he.2).after
  · refine ⟨fun _ hn => hc hn.1, fun _ => ?_⟩
    exact ((Call.exec_spec h hvalid hc).mono (fun _ _ hq => hq.2) fun _ _ he => he).after

lemma oneRow_live : oneRow.Live 0 := by decide +kernel

/-- A lookup of a row reads live items only. -/
theorem oneRow_find_readsLive : ReadsLive pairs (.find 3) oneRow :=
  (run_readsLive_iff (c := .find 3) pairs_starts oneRow_run trivial).mpr fun herase => herase.1

/-- A table with one row, and its row erased: the call is valid, and reads the discarded item. -/
theorem oneRow_erase_reads_discarded :
    Run pairs emptyState [oneRow, emptyState] ∧ (Call.eraseObj 0).Valid pairs oneRow.toCache ∧
      ¬ ReadsLive pairs (.eraseObj 0) oneRow := by
  refine ⟨oneRow_run, oneRow_live, ?_⟩
  unfold ReadsLive
  decide +kernel

/-! ## Runs and the next primary key -/

omit [Inhabited T] in
/-- What one call does to the next primary key. -/
lemma Effect.nextOk (h : Effect m d s s')
    (hnext : s.nextPrimaryKey = unsetNextPrimaryKey ∨
      NextOk d (s :: past) s.chain s.nextPrimaryKey) :
    s'.nextPrimaryKey = unsetNextPrimaryKey ∨
      NextOk d (s' :: s :: past) s'.chain s'.nextPrimaryKey := by
  have hwritten : ∀ pk, pk < 2 ^ 64 → s'.nextPrimaryKey = raised s.nextPrimaryKey pk →
      (∃ e ∈ d.rows s'.chain, e.key = pk) →
      (∀ e ∈ d.rows s'.chain, e.key = pk ∨ e ∈ d.rows s.chain) →
      s'.nextPrimaryKey = unsetNextPrimaryKey ∨
        NextOk d (s' :: s :: past) s'.chain s'.nextPrimaryKey := by
    intro pk hpk hraised hrow hrows
    rw [hraised]
    rcases hnext with hunset | hok
    · rw [hunset]
      exact raised_unset hpk hrow
    · exact .inr (hok.raised hrow hrows)
  have hold : s'.nextPrimaryKey = s.nextPrimaryKey →
      (∀ e ∈ d.rows s'.chain, e ∈ d.rows s.chain) →
      s'.nextPrimaryKey = unsetNextPrimaryKey ∨
        NextOk d (s' :: s :: past) s'.chain s'.nextPrimaryKey := by
    intro hsame hrows
    rw [hsame]
    exact hnext.imp_right fun hok => hok.mono (fun _ hs => List.mem_cons_of_mem _ hs) hrows
  have hchanged : ∀ pk, Changes m d pk s s' →
      ∀ e ∈ d.rows s'.chain, e.key = pk ∨ e ∈ d.rows s.chain := by
    intro pk hchanges e he
    by_cases hkey : e.key = pk
    · exact .inl hkey
    · exact .inr (((hchanges.same e.key hkey).row e rfl).mp he)
  cases h with
  | lookup h => exact hold h.nextPrimaryKey fun e he => h.chain ▸ he
  | count s1 h hs' =>
    have hchain : s'.chain = s.chain := by
      rw [hs']
      exact h.chain
    have hcounted : s'.nextPrimaryKey = counted (d.rows s.chain) s.nextPrimaryKey := by rw [hs']
    unfold counted at hcounted
    split at hcounted
    · right
      rw [hcounted, hchain]
      exact firstPrimaryKey_ok (List.mem_cons_of_mem _ List.mem_cons_self)
    · exact hold hcounted fun e he => hchain ▸ he
  | emplace obj it h =>
    obtain ⟨e, hrow, -⟩ := h.after
    exact hwritten _ (m.primaryKey_lt obj) h.nextPrimaryKey ⟨e, hrow.mem, hrow.key⟩
      (hchanged _ h.changes)
  | modify p payer old new hlive hitem h =>
    obtain ⟨e, hrow, -⟩ := h.after
    exact hwritten _ (m.primaryKey_lt old) h.nextPrimaryKey ⟨e, hrow.mem, hrow.key⟩
      (hchanged _ h.changes)
  | erase pk h =>
    refine hold h.nextPrimaryKey fun e he => (hchanged _ h.changes e he).resolve_left ?_
    intro hkey
    cases (h.after.1 e).mp ⟨he, hkey⟩

lemma Run.nextOk (hstart : Starts m d start) (hrun : Run m start (s :: past)) :
    s.nextPrimaryKey = unsetNextPrimaryKey ∨ NextOk d (s :: past) s.chain s.nextPrimaryKey := by
  generalize hstates : s :: past = states at hrun
  induction hrun generalizing s past with
  | start =>
    cases hstates
    left
    rw [hstart.new]
    rfl
  | call c hrun hvalid hexec ih =>
    cases hstates
    exact (c.effect (hrun.inv hstart) hvalid hexec).nextOk (ih rfl)

/-- In every run `available_primary_key` gives a key above all rows, or has met the end of the
keys. -/
theorem run_availablePrimaryKey (hstart : Starts m d start) (hrun : Run m start (s :: past)) :
    Meets m.availablePrimaryKey s
      (fun k _ => k < 2 ^ 64 - 2 ∧ ∀ e ∈ d.rows s.chain, e.key < k)
      fun _ _ => ∃ s₀ ∈ s :: past, ∃ e ∈ d.rows s₀.chain, 2 ^ 64 - 3 ≤ e.key := by
  have hok : NextOk d (s :: past) s.chain (counted (d.rows s.chain) s.nextPrimaryKey) := by
    unfold counted
    split
    · exact firstPrimaryKey_ok List.mem_cons_self
    · rename_i hset
      exact (hrun.nextOk hstart).resolve_left hset
  refine (availablePrimaryKey_spec (hrun.inv hstart)).mono ?_ ?_
  · rintro k s' ⟨s1, -, -, rfl, hlt⟩
    refine ⟨hlt, ?_⟩
    rcases hok with ⟨-, hkeys⟩ | ⟨heq, -⟩
    · exact hkeys
    · omega
  · rintro _ s' ⟨hge, -⟩
    rcases hok with ⟨hlt, -⟩ | ⟨-, hexhausted⟩
    · omega
    · exact hexhausted

/-- Behind one row the next key is free. -/
theorem oneRow_availablePrimaryKey :
    Meets pairs.availablePrimaryKey oneRow
      (fun k _ => k < 2 ^ 64 - 2 ∧ ∀ e ∈ pairs.maps.rows oneRow.chain, e.key < k)
      fun _ _ => ∃ s₀ ∈ [oneRow, emptyState], ∃ e ∈ pairs.maps.rows s₀.chain, 2 ^ 64 - 3 ≤ e.key :=
  run_availablePrimaryKey pairs_starts oneRow_run

/-! ## Runs and billing -/

/-- In every run a `modify` moves the whole bill exactly when every entry whose key it leaves alone
is billed to the payer already. -/
theorem run_modify_bills_iff (hstart : Starts m d start) (hrun : Run m start (s :: past))
    {p payer : ℕ} (hp : s.Live p) {updater : T → T}
    (hexec : m.modifyObj p payer updater s = .ok () s') :
    BillsWhole m d (m.primaryKey (s.items p).obj) payer s.chain s'.chain ↔
      (payer = samePayer ∨ ∀ i < m.indices,
        m.extractSecondaryKey i (s.items p).obj =
            m.extractSecondaryKey i (updater (s.items p).obj) →
          EntryBilled d s.chain i (m.primaryKey (s.items p).obj) payer) := by
  have h := hrun.inv hstart
  exact ((modifyObj_spec h hp payer updater).of_ok hexec).billsWhole_iff h hp rfl

/-- Account 9 takes over the row and leaves its object as it is. -/
def sameObject : State (ListChain UInt8) (UInt8 × UInt8) :=
  after (pairs.modifyObj 0 9 id oneRow)

lemma sameObject_returned : pairs.modifyObj 0 9 id oneRow = .ok () sameObject := by
  obtain ⟨⟨⟩, ha⟩ := ok_after (x := pairs.modifyObj 0 9 id) (s := oneRow) (by decide +kernel)
  exact ha

/-- With an account that changes the secondary key the whole bill moves. -/
theorem movedObject_bills : ∃ s',
    pairs.modifyObj 0 9 (fun obj => (obj.1, 5)) oneRow = .ok () s' ∧
      BillsWhole pairs pairs.maps 3 9 oneRow.chain s'.chain := by
  obtain ⟨⟨⟩, ha⟩ := ok_after (x := pairs.modifyObj 0 9 fun obj => (obj.1, 5)) (s := oneRow)
    (by decide +kernel)
  refine ⟨_, ha, ?_⟩
  refine (run_modify_bills_iff pairs_starts oneRow_run oneRow_live ha).mpr
    (.inr fun i _ hsame => ?_)
  have hmoved : pairs.extractSecondaryKey 0 (oneRow.items 0).obj ≠
      pairs.extractSecondaryKey 0 ((oneRow.items 0).obj.1, 5) := by decide +kernel
  exact absurd hsame hmoved

/-- Account 9 pays for the row now, and account 7 still for its index entry. -/
theorem sameObject_not_billed : ∃ s, Run pairs emptyState [s, emptyState] ∧ s.Live 0 ∧
    ∃ s', pairs.modifyObj 0 9 id s = .ok () s' ∧
      ¬ BillsWhole pairs pairs.maps (pairs.primaryKey (s.items 0).obj) 9 s.chain s'.chain := by
  refine ⟨oneRow, oneRow_run, oneRow_live, sameObject, sameObject_returned, fun hbills => ?_⟩
  obtain ⟨x, hx, hpayer⟩ := (hbills.1 (by decide)).2 0 (by decide)
  have hpayers : (pairs.maps.entries sameObject.chain 0).map (fun x => x.val.payer) = [7] := by
    decide +kernel
  have hmem := List.mem_map_of_mem (f := fun x => x.val.payer) hx.mem
  rw [hpayers, hpayer] at hmem
  cases hmem with
  | tail _ h => cases h

end UosioCdt.Contracts
