import UosioCdt.Contracts.Calls

/-!
# A database of lists

The intrinsics on sorted lists, with handles given out by a counter, so that none is used twice. They
are ordered maps, and they run.
-/

namespace UosioCdt.Contracts

open OrderedTable

/-! ## Tables -/

structure Tables (κ : Type) where
  rows : Table ℕ Row
  entries : ℕ → Table (IndexKey ℕ) (Reference κ)
  counter : ℕ

/-- A table in order, with different handles that were given out. -/
structure Handled {κ' β : Type} [LinearOrder κ'] (counter : ℕ) (t : Table κ' β) : Prop where
  sorted : Sorted t
  itr : ∀ e ∈ t, 0 ≤ e.itr ∧ e.itr < counter
  inj : ∀ e ∈ t, ∀ e' ∈ t, e.itr = e'.itr → e = e'

structure Tables.Ok {κ : Type} (c : Tables κ) : Prop where
  rows : Handled c.counter c.rows
  entries : ∀ i, Handled c.counter (c.entries i)
  key : ∀ e ∈ c.rows, e.key < 2 ^ 64

abbrev ListChain (κ : Type) := { c : Tables κ // c.Ok }

section Handled

variable {κ' β : Type} [LinearOrder κ'] {t : Table κ' β} {n : ℕ} {e : Entry κ' β} {k : κ'} {v : β}

lemma Handled.nil : Handled n ([] : Table κ' β) :=
  ⟨List.Pairwise.nil, fun _ h => (List.not_mem_nil h).elim, fun _ h => (List.not_mem_nil h).elim⟩

lemma Handled.succ (h : Handled n t) : Handled (n + 1) t :=
  ⟨h.sorted, fun e he => ⟨(h.itr e he).1, by have := (h.itr e he).2; omega⟩, h.inj⟩

/-- A new entry under a new handle. -/
lemma Handled.put_new (h : Handled n t) (hnew : ∀ x ∈ t, x.key ≠ k) :
    Handled (n + 1) (put t ⟨k, n, v⟩) := by
  refine ⟨h.sorted.put hnew, fun x hx => ?_, fun x hx y hy hitr => ?_⟩
  · rcases mem_put.mp hx with rfl | hx
    · exact ⟨Int.natCast_nonneg n, by show (n : ℤ) < ((n + 1 : ℕ) : ℤ); omega⟩
    · exact (h.succ.itr x hx)
  · rcases mem_put.mp hx with rfl | hx <;> rcases mem_put.mp hy with rfl | hy
    · rfl
    · exact absurd (h.itr y hy).2 (by rw [← hitr]; simp)
    · exact absurd (h.itr x hx).2 (by rw [hitr]; simp)
    · exact h.inj x hx y hy hitr

/-- An entry put back under its handle. -/
lemma Handled.put_back (h : Handled n t) (he : e ∈ t) (hnew : ∀ x ∈ remove t e.key, x.key ≠ k) :
    Handled n (put (remove t e.key) ⟨k, e.itr, v⟩) := by
  have hother : ∀ x ∈ remove t e.key, x.itr ≠ e.itr := by
    intro x hx heq
    obtain ⟨hx, hne⟩ := mem_remove.mp hx
    exact hne (congrArg Entry.key (h.inj x hx e he heq))
  refine ⟨h.sorted.remove.put hnew, fun x hx => ?_, fun x hx y hy hitr => ?_⟩
  · rcases mem_put.mp hx with rfl | hx
    · exact h.itr e he
    · exact h.itr x (mem_remove.mp hx).1
  · rcases mem_put.mp hx with rfl | hx <;> rcases mem_put.mp hy with rfl | hy
    · rfl
    · exact absurd hitr.symm (hother y hy)
    · exact absurd hitr (hother x hx)
    · exact h.inj x (mem_remove.mp hx).1 y (mem_remove.mp hy).1 hitr

lemma Handled.remove (h : Handled n t) : Handled n (remove t k) :=
  ⟨h.sorted.remove, fun x hx => h.itr x (mem_remove.mp hx).1,
    fun x hx y hy => h.inj x (mem_remove.mp hx).1 y (mem_remove.mp hy).1⟩

lemma Handled.setVal (h : Handled n t) : Handled n (setVal t k v) := by
  have hitr : ∀ x : Entry κ' β, (if x.key = k then { x with val := v } else x).itr = x.itr := by
    intro x
    split <;> rfl
  refine ⟨h.sorted.setVal, fun x hx => ?_, fun x hx y hy heq => ?_⟩
  · obtain ⟨x', hx', rfl⟩ := mem_setVal.mp hx
    rw [hitr]
    exact h.itr x' hx'
  · obtain ⟨x', hx', rfl⟩ := mem_setVal.mp hx
    obtain ⟨y', hy', rfl⟩ := mem_setVal.mp hy
    rw [hitr, hitr] at heq
    rw [h.inj x' hx' y' hy' heq]

/-- The entry under a handle. -/
def byItr (t : Table κ' β) (itr : ℤ) : Option (Entry κ' β) := t.find? fun e => e.itr = itr

lemma Handled.byItr (h : Handled n t) (he : e ∈ t) : byItr t e.itr = some e := by
  unfold Contracts.byItr
  cases hfind : t.find? fun x => decide (x.itr = e.itr) with
  | none => simpa using List.find?_eq_none.mp hfind e he
  | some x =>
    have hx := List.find?_some hfind
    rw [decide_eq_true_iff] at hx
    rw [h.inj x (List.mem_of_find?_eq_some hfind) e he hx]

omit [LinearOrder κ'] in
lemma mem_of_byItr {itr : ℤ} (h : Contracts.byItr t itr = some e) : e ∈ t :=
  List.mem_of_find?_eq_some h

end Handled

/-! ## The calls -/

namespace ListChain

variable {κ : Type} (rank : ℕ → κ → ℕ)

/-- A handle, `-2` for none. -/
def handle {κ' β : Type} : Option (Entry κ' β) → ℤ
  | some e => e.itr
  | none => -2

def handleOf {κ' β : Type} (primary : κ' → ℕ) : Option (Entry κ' β) → ℤ × ℕ
  | some e => (e.itr, primary e.key)
  | none => (-2, 0)

def store (c : ListChain κ) (payer id : ℕ) (data : List UInt8) : Option (ℤ × ListChain κ) :=
  if h : id < 2 ^ 64 ∧ payer ≠ 0 ∧ ∀ e ∈ c.1.rows, e.key ≠ id then
    some (c.1.counter, ⟨⟨put c.1.rows ⟨id, c.1.counter, ⟨data, payer⟩⟩, c.1.entries,
      c.1.counter + 1⟩, c.2.rows.put_new h.2.2, fun i => (c.2.entries i).succ, by
        intro e he
        rcases mem_put.mp he with rfl | he
        · exact h.1
        · exact c.2.key e he⟩)
  else none

def update (c : ListChain κ) (itr : ℤ) (payer : ℕ) (data : List UInt8) : Option (ListChain κ) :=
  match byItr c.1.rows itr with
  | some e => some ⟨⟨setVal c.1.rows e.key ⟨data, billed payer e.val.payer⟩, c.1.entries,
      c.1.counter⟩, c.2.rows.setVal, c.2.entries, by
        intro e he
        obtain ⟨x, hx, rfl⟩ := mem_setVal.mp he
        have hkey := c.2.key x hx
        split <;> exact hkey⟩
  | none => none

def remove (c : ListChain κ) (itr : ℤ) : Option (ListChain κ) :=
  match byItr c.1.rows itr with
  | some e => some ⟨⟨OrderedTable.remove c.1.rows e.key, c.1.entries, c.1.counter⟩,
      c.2.rows.remove, c.2.entries, fun x hx => c.2.key x (mem_remove.mp hx).1⟩
  | none => none

/-- An index with other entries. -/
def withEntries (c : ListChain κ) (i : ℕ) (t : Table (IndexKey ℕ) (Reference κ)) (counter : ℕ)
    (hcounter : c.1.counter ≤ counter) (ht : Handled counter t) : ListChain κ :=
  have hgrow : ∀ {κ' β : Type} [LinearOrder κ'] {t : Table κ' β}, Handled c.1.counter t →
      Handled counter t := fun h => ⟨h.sorted, fun e he => ⟨(h.itr e he).1, by
        have := (h.itr e he).2
        omega⟩, h.inj⟩
  ⟨⟨c.1.rows, Function.update c.1.entries i t, counter⟩, hgrow c.2.rows, fun j => by
    by_cases hj : j = i
    · subst hj
      simpa using ht
    · simpa [hj] using hgrow (c.2.entries j), c.2.key⟩

def idxStore (c : ListChain κ) (i payer id : ℕ) (secondary : κ) : Option (ℤ × ListChain κ) :=
  if h : payer ≠ 0 ∧ ∀ x ∈ c.1.entries i, x.key ≠ .mk (rank i secondary) id then
    some (c.1.counter, c.withEntries i
      (put (c.1.entries i) ⟨.mk (rank i secondary) id, c.1.counter, ⟨secondary, payer⟩⟩)
      (c.1.counter + 1) (Nat.le_succ _) ((c.2.entries i).put_new h.2))
  else none

def idxUpdate (c : ListChain κ) (i : ℕ) (itr : ℤ) (payer : ℕ) (secondary : κ) :
    Option (ListChain κ) :=
  match hx : byItr (c.1.entries i) itr with
  | some x =>
    if h : ∀ y ∈ OrderedTable.remove (c.1.entries i) x.key,
        y.key ≠ .mk (rank i secondary) x.key.primary then
      some (c.withEntries i (put (OrderedTable.remove (c.1.entries i) x.key)
        ⟨.mk (rank i secondary) x.key.primary, x.itr, ⟨secondary, billed payer x.val.payer⟩⟩)
        c.1.counter le_rfl ((c.2.entries i).put_back (mem_of_byItr hx) h))
    else none
  | none => none

def idxRemove (c : ListChain κ) (i : ℕ) (itr : ℤ) : Option (ListChain κ) :=
  match byItr (c.1.entries i) itr with
  | some x => some (c.withEntries i (OrderedTable.remove (c.1.entries i) x.key) c.1.counter le_rfl
      (c.2.entries i).remove)
  | none => none

def intrinsics : Intrinsics (ListChain κ) κ where
  storeI64 := store
  updateI64 := update
  removeI64 := remove
  getI64 c itr := (byItr c.1.rows itr).map fun e => e.val.data
  nextI64 c itr := handleOf id ((byItr c.1.rows itr).bind fun e => upperBound c.1.rows e.key)
  previousI64 c itr :=
    if itr = -2 then handleOf id c.1.rows.getLast?
    else handleOf id ((byItr c.1.rows itr).bind fun e => before c.1.rows e.key)
  findI64 c id := handle (lookup c.1.rows id)
  lowerboundI64 c id := handle (lowerBound c.1.rows id)
  upperboundI64 c id := handle (upperBound c.1.rows id)
  endI64 c := if c.1.rows = [] then -1 else -2
  idxStore := idxStore rank
  idxUpdate := idxUpdate rank
  idxRemove := idxRemove
  idxNext c i itr := handleOf IndexKey.primary
    ((byItr (c.1.entries i) itr).bind fun x => upperBound (c.1.entries i) x.key)
  idxPrevious c i itr :=
    if itr = -2 then handleOf IndexKey.primary (c.1.entries i).getLast?
    else handleOf IndexKey.primary
      ((byItr (c.1.entries i) itr).bind fun x => before (c.1.entries i) x.key)
  idxFindPrimary c i id := handle ((c.1.entries i).find? fun x => x.key.primary = id)
  idxLowerbound c i secondary := handleOf IndexKey.primary
    ((c.1.entries i).find? fun x => rank i secondary ≤ x.key.rank)
  idxUpperbound c i secondary := handleOf IndexKey.primary
    ((c.1.entries i).find? fun x => rank i secondary < x.key.rank)
  idxEnd c i := if c.1.entries i = [] then -1 else -2

/-! ## The laws -/

lemma isHandle_handle {κ' β : Type} (o : Option (Entry κ' β)) : IsHandle (handle o) o := by
  cases o with
  | none => exact (by decide : (-2 : ℤ) < 0)
  | some e => rfl

lemma isHandleOf_handleOf {κ' β : Type} (primary : κ' → ℕ) (o : Option (Entry κ' β)) :
    IsHandleOf (handleOf primary o) primary o := by
  cases o with
  | none => exact (by decide : (-2 : ℤ) < 0)
  | some e => exact ⟨rfl, rfl⟩

lemma withEntries_others {c : ListChain κ} {i j n : ℕ} {t : Table (IndexKey ℕ) (Reference κ)}
    {hcounter : c.1.counter ≤ n} {ht : Handled n t} (hj : j ≠ i) :
    (withEntries c i t n hcounter ht).1.entries j = c.1.entries j := Function.update_of_ne hj _ _

lemma withEntries_self {c : ListChain κ} {i n : ℕ} {t : Table (IndexKey ℕ) (Reference κ)}
    {hcounter : c.1.counter ≤ n} {ht : Handled n t} :
    (withEntries c i t n hcounter ht).1.entries i = t := Function.update_self _ _ _

/-- The lists are ordered maps. Every account but the empty one can be billed. -/
def ordered : OrderedMaps (intrinsics rank) rank where
  rows c := c.1.rows
  entries c := c.1.entries
  bills _ payer := payer ≠ 0
  rows_sorted c := c.2.rows.sorted
  rows_key c := c.2.key
  rows_itr c e he := (c.2.rows.itr e he).1
  rows_itr_inj c := c.2.rows.inj
  entries_sorted c i := (c.2.entries i).sorted
  entries_itr c i x hx := ((c.2.entries i).itr x hx).1
  store_some := by
    intro c payer id data itr c' h
    change store c payer id data = _ at h
    unfold store at h
    split at h
    · rename_i hok
      cases h
      exact ⟨hok.2.2, rfl, rfl⟩
    · cases h
  store_bills := by
    intro c payer id data hid hbills hnew
    change (store c payer id data).isSome
    unfold store
    rw [dif_pos ⟨hid, hbills, hnew⟩]
    rfl
  update_some := by
    intro c e payer data c' he h
    change update c e.itr payer data = _ at h
    unfold update at h
    rw [c.2.rows.byItr he] at h
    cases h
    exact ⟨rfl, rfl⟩
  update_bills := by
    intro c e payer data he _
    change (update c e.itr payer data).isSome
    unfold update
    rw [c.2.rows.byItr he]
    rfl
  remove_row := by
    intro c e he
    change ∃ c', remove c e.itr = some c' ∧ c'.1.rows = _ ∧ c'.1.entries = _
    unfold remove
    rw [c.2.rows.byItr he]
    exact ⟨_, rfl, rfl, rfl⟩
  get_row := by
    intro c e he
    change (byItr c.1.rows e.itr).map _ = _
    rw [c.2.rows.byItr he]
    rfl
  next_row := by
    intro c e he
    change IsHandleOf (handleOf id ((byItr c.1.rows e.itr).bind _)) id _
    rw [c.2.rows.byItr he]
    exact isHandleOf_handleOf id _
  previous_row := by
    intro c e he
    have hne : e.itr ≠ -2 := by
      have := (c.2.rows.itr e he).1
      omega
    change IsHandleOf (if e.itr = -2 then _ else handleOf id ((byItr c.1.rows e.itr).bind _)) id _
    rw [if_neg hne, c.2.rows.byItr he]
    exact isHandleOf_handleOf id _
  end_row := by
    intro c hne
    change (if c.1.rows = [] then (-1 : ℤ) else -2) ≠ -1
    rw [if_neg hne]
    decide
  previous_end := by
    intro c hend
    have hne : c.1.rows ≠ [] := by
      intro h
      exact hend (if_pos h)
    have heq : (intrinsics rank).endI64 c = -2 := if_neg hne
    rw [heq]
    exact isHandleOf_handleOf id _
  find_row c k := isHandle_handle _
  lowerbound_row c k := isHandle_handle _
  upperbound_row c k := isHandle_handle _
  idx_store_some := by
    intro c i payer id secondary itr c' h
    change idxStore rank c i payer id secondary = _ at h
    unfold idxStore at h
    split at h
    · cases h
      exact ⟨withEntries_self, fun j hj => withEntries_others hj, rfl⟩
    · cases h
  idx_update_some := by
    intro c i x payer secondary c' hx h
    change idxUpdate rank c i x.itr payer secondary = _ at h
    unfold idxUpdate at h
    split at h
    · rename_i y hy
      rw [(c.2.entries i).byItr hx] at hy
      cases hy
      split at h
      · cases h
        exact ⟨withEntries_self, fun j hj => withEntries_others hj, rfl⟩
      · cases h
    · cases h
  idx_remove := by
    intro c i x hx
    change ∃ c', idxRemove c i x.itr = some c' ∧ c'.1.entries i = _ ∧
      (∀ j, j ≠ i → c'.1.entries j = _) ∧ c'.1.rows = _
    unfold idxRemove
    rw [(c.2.entries i).byItr hx]
    exact ⟨_, rfl, withEntries_self, fun j hj => withEntries_others hj, rfl⟩
  idx_next := by
    intro c i x hx
    change IsHandleOf (handleOf IndexKey.primary ((byItr (c.1.entries i) x.itr).bind _)) _ _
    rw [(c.2.entries i).byItr hx]
    exact isHandleOf_handleOf IndexKey.primary _
  idx_previous := by
    intro c i x hx
    have hne : x.itr ≠ -2 := by
      have := ((c.2.entries i).itr x hx).1
      omega
    change IsHandleOf (if x.itr = -2 then _
      else handleOf IndexKey.primary ((byItr (c.1.entries i) x.itr).bind _)) _ _
    rw [if_neg hne, (c.2.entries i).byItr hx]
    exact isHandleOf_handleOf IndexKey.primary _
  idx_end := by
    intro c i hne
    change (if c.1.entries i = [] then (-1 : ℤ) else -2) ≠ -1
    rw [if_neg hne]
    decide
  idx_previous_end := by
    intro c i hend
    have hne : c.1.entries i ≠ [] := by
      intro h
      exact hend (if_pos h)
    have heq : (intrinsics rank).idxEnd c i = -2 := if_neg hne
    rw [heq]
    exact isHandleOf_handleOf IndexKey.primary _
  idx_find_primary := by
    intro c i x hx hunique
    change handle ((c.1.entries i).find? fun y => decide (y.key.primary = x.key.primary)) = x.itr
    cases hfind : (c.1.entries i).find? fun y => decide (y.key.primary = x.key.primary) with
    | none => simpa using List.find?_eq_none.mp hfind x hx
    | some y =>
      have hy := List.find?_some hfind
      rw [decide_eq_true_iff] at hy
      rw [hunique y (List.mem_of_find?_eq_some hfind) hy]
      rfl
  idx_lowerbound c i secondary := isHandleOf_handleOf _ _
  idx_upperbound c i secondary := isHandleOf_handleOf _ _

end ListChain

/-! ## A table of byte pairs -/

/-- No rows yet. -/
def ListChain.empty {κ : Type} : ListChain κ :=
  ⟨⟨[], fun _ => [], 0⟩, Handled.nil, fun _ => Handled.nil, fun _ h => (List.not_mem_nil h).elim⟩

def byteRank (_ : ℕ) (key : UInt8) : ℕ := key.toNat

/-- Rows of two bytes: the primary key, and what each index is over. -/
def bytePairs (code receiver indices : ℕ) (hindices : indices ≤ 16) :
    MultiIndex (ListChain UInt8) (UInt8 × UInt8) UInt8 ℕ where
  db := ListChain.intrinsics byteRank
  code := code
  receiver := receiver
  pack obj := [obj.1, obj.2]
  unpack
    | [a, b] => .ok (a, b)
    | _ => .error "read"
  unpack_pack _ := rfl
  primaryKey obj := obj.1.toNat
  primaryKey_lt obj := lt_trans obj.1.toNat_lt (by decide)
  indices := indices
  indices_le := hindices
  extractSecondaryKey _ obj := obj.2
  rank := byteRank
  equal _ a b := a == b
  equal_iff _ a b := by rw [beq_iff_eq, byteRank, byteRank, UInt8.toNat_inj]
  trueLowest _ := 0
  trueLowest_le _ _ := Nat.zero_le _

/-- A new object over the empty table. -/
def emptyState : State (ListChain UInt8) (UInt8 × UInt8) := ⟨Cache.new 0, ListChain.empty⟩

/-- The lists of a table of byte pairs. -/
def bytePairs.maps (code receiver indices : ℕ) (hindices : indices ≤ 16) :
    OrderedMaps (bytePairs code receiver indices hindices).db
      (bytePairs code receiver indices hindices).rank :=
  ListChain.ordered byteRank

lemma emptyState_starts (code receiver indices : ℕ) (hindices : indices ≤ 16) :
    Starts (bytePairs code receiver indices hindices)
      (bytePairs.maps code receiver indices hindices) emptyState :=
  ⟨DbOk.empty rfl fun _ _ => rfl, rfl⟩

/-- A table with one index, of the contract itself. -/
def pairs : MultiIndex (ListChain UInt8) (UInt8 × UInt8) UInt8 ℕ := bytePairs 1 1 1 (by decide)

def pairs.maps : OrderedMaps pairs.db pairs.rank := bytePairs.maps 1 1 1 (by decide)

lemma pairs_starts : Starts pairs pairs.maps emptyState := emptyState_starts 1 1 1 (by decide)

/-- Account 7 has paid for a row. -/
def oneRow : State (ListChain UInt8) (UInt8 × UInt8) :=
  Aborting.after ((Call.emplace 7 fun _ => (3, 4)).exec pairs emptyState)

lemma oneRow_run : Run pairs emptyState [oneRow, emptyState] := by
  obtain ⟨a, ha⟩ := Aborting.ok_after (x := (Call.emplace 7 fun _ => (3, 4)).exec pairs)
    (s := emptyState) (by decide +kernel)
  exact .call (.emplace 7 fun _ => (3, 4)) .start trivial ha

/-- A row is added in front of the row. -/
def twoRows : State (ListChain UInt8) (UInt8 × UInt8) :=
  Aborting.after ((Call.emplace 7 fun _ => (1, 9)).exec pairs oneRow)

/-- One more is added behind them. -/
def threeRows : State (ListChain UInt8) (UInt8 × UInt8) :=
  Aborting.after ((Call.emplace 7 fun _ => (8, 2)).exec pairs twoRows)

lemma threeRows_run : Run pairs emptyState [threeRows, twoRows, oneRow, emptyState] := by
  obtain ⟨a, ha⟩ := Aborting.ok_after (x := (Call.emplace 7 fun _ => (1, 9)).exec pairs)
    (s := oneRow) (by decide +kernel)
  obtain ⟨b, hb⟩ := Aborting.ok_after (x := (Call.emplace 7 fun _ => (8, 2)).exec pairs)
    (s := twoRows) (by decide +kernel)
  have htwo : Run pairs emptyState [twoRows, oneRow, emptyState] :=
    .call (.emplace 7 fun _ => (1, 9)) oneRow_run trivial ha
  exact .call (.emplace 7 fun _ => (8, 2)) htwo trivial hb

end UosioCdt.Contracts
