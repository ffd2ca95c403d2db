import UosioCdt.Lib.OrderedTable
import Mathlib.Algebra.Group.Nat.Defs
import Mathlib.Data.Prod.Lex

/-!
# The database of a chain

The `db_*_i64` and `db_idx*` intrinsics as a `multi_index` calls them, always at its own code, scope
and table name. An index is addressed by its number, which is what its table name is made from.
A secondary key is what lies in memory for it, of type `κ`, whatever the index is over.
-/

namespace UosioCdt.Contracts

open OrderedTable

/-! ## The intrinsics -/

/-- The calls. Where a call may abort the transaction it gives an option. -/
structure Intrinsics (C κ : Type) where
  storeI64 : C → (payer id : ℕ) → (data : List UInt8) → Option (ℤ × C)
  updateI64 : C → (itr : ℤ) → (payer : ℕ) → (data : List UInt8) → Option C
  removeI64 : C → (itr : ℤ) → Option C
  /-- The bytes of a row, `none` where the size comes out negative. -/
  getI64 : C → (itr : ℤ) → Option (List UInt8)
  /-- The handle and the primary key of what follows. -/
  nextI64 : C → (itr : ℤ) → ℤ × ℕ
  previousI64 : C → (itr : ℤ) → ℤ × ℕ
  findI64 : C → (id : ℕ) → ℤ
  lowerboundI64 : C → (id : ℕ) → ℤ
  upperboundI64 : C → (id : ℕ) → ℤ
  endI64 : C → ℤ
  idxStore : C → (number payer id : ℕ) → (secondary : κ) → Option (ℤ × C)
  idxUpdate : C → (number : ℕ) → (itr : ℤ) → (payer : ℕ) → (secondary : κ) → Option C
  idxRemove : C → (number : ℕ) → (itr : ℤ) → Option C
  idxNext : C → (number : ℕ) → (itr : ℤ) → ℤ × ℕ
  idxPrevious : C → (number : ℕ) → (itr : ℤ) → ℤ × ℕ
  idxFindPrimary : C → (number id : ℕ) → ℤ
  idxLowerbound : C → (number : ℕ) → (secondary : κ) → ℤ × ℕ
  idxUpperbound : C → (number : ℕ) → (secondary : κ) → ℤ × ℕ
  idxEnd : C → (number : ℕ) → ℤ

/-- `same_payer`, the empty name. -/
def samePayer : ℕ := 0

/-! ## Ordered maps -/

/-- A row of the primary table, under its primary key. -/
structure Row where
  data : List UInt8
  payer : ℕ

/-- An entry of an index holds its secondary key. -/
structure Reference (κ : Type) where
  secondary : κ
  payer : ℕ

/-- An index is in the order of the secondary keys, and of the primary keys among equal ones. -/
abbrev IndexKey (ρ : Type) := ρ ×ₗ ℕ

namespace IndexKey

variable {ρ : Type}

/-- The place of the secondary key in the order of the index. -/
def rank (k : IndexKey ρ) : ρ := (ofLex k).1

def primary (k : IndexKey ρ) : ℕ := (ofLex k).2

def mk (r : ρ) (id : ℕ) : IndexKey ρ := toLex (r, id)

@[simp] lemma rank_mk (r : ρ) (id : ℕ) : (mk r id).rank = r := rfl

@[simp] lemma primary_mk (r : ρ) (id : ℕ) : (mk r id).primary = id := rfl

end IndexKey

/-- Who pays after an update. -/
def billed (payer old : ℕ) : ℕ := if payer = samePayer then old else payer

/-- A handle stands for an entry; a negative one for none. -/
def IsHandle {κ β : Type} (itr : ℤ) : Option (Entry κ β) → Prop
  | some e => itr = e.itr
  | none => itr < 0

/-- A handle with the primary key that comes with it. -/
def IsHandleOf {κ β : Type} (r : ℤ × ℕ) (primary : κ → ℕ) : Option (Entry κ β) → Prop
  | some e => r.1 = e.itr ∧ r.2 = primary e.key
  | none => r.1 < 0

/-- The database as ordered maps: a row and an entry keep their handles while they are there, an end
handle is not `-1` unless there is nothing. `rank` is the order of each index. -/
structure OrderedMaps {C κ ρ : Type} [LinearOrder ρ] (db : Intrinsics C κ) (rank : ℕ → κ → ρ) where
  rows : C → Table ℕ Row
  entries : C → ℕ → Table (IndexKey ρ) (Reference κ)
  /-- The accounts that can be billed. -/
  bills : C → ℕ → Prop
  rows_sorted : ∀ c, Sorted (rows c)
  rows_key : ∀ c, ∀ e ∈ rows c, e.key < 2 ^ 64
  rows_itr : ∀ c, ∀ e ∈ rows c, 0 ≤ e.itr
  rows_itr_inj : ∀ c, ∀ e ∈ rows c, ∀ e' ∈ rows c, e.itr = e'.itr → e = e'
  entries_sorted : ∀ c i, Sorted (entries c i)
  entries_itr : ∀ c i, ∀ x ∈ entries c i, 0 ≤ x.itr
  store_some : ∀ {c payer id data itr c'}, db.storeI64 c payer id data = some (itr, c') →
    (∀ e ∈ rows c, e.key ≠ id) ∧ rows c' = put (rows c) ⟨id, itr, ⟨data, payer⟩⟩ ∧
      entries c' = entries c
  store_bills : ∀ {c payer id} data, id < 2 ^ 64 → bills c payer → (∀ e ∈ rows c, e.key ≠ id) →
    (db.storeI64 c payer id data).isSome
  update_some : ∀ {c e payer data c'}, e ∈ rows c → db.updateI64 c e.itr payer data = some c' →
    rows c' = setVal (rows c) e.key ⟨data, billed payer e.val.payer⟩ ∧ entries c' = entries c
  update_bills : ∀ {c e payer} data, e ∈ rows c → payer = samePayer ∨ bills c payer →
    (db.updateI64 c e.itr payer data).isSome
  remove_row : ∀ {c e}, e ∈ rows c → ∃ c', db.removeI64 c e.itr = some c' ∧
    rows c' = remove (rows c) e.key ∧ entries c' = entries c
  get_row : ∀ {c e}, e ∈ rows c → db.getI64 c e.itr = some e.val.data
  next_row : ∀ {c e}, e ∈ rows c → IsHandleOf (db.nextI64 c e.itr) id (upperBound (rows c) e.key)
  previous_row : ∀ {c e}, e ∈ rows c → IsHandleOf (db.previousI64 c e.itr) id (before (rows c) e.key)
  end_row : ∀ c, rows c ≠ [] → db.endI64 c ≠ -1
  previous_end : ∀ c, db.endI64 c ≠ -1 →
    IsHandleOf (db.previousI64 c (db.endI64 c)) id (rows c).getLast?
  find_row : ∀ c k, IsHandle (db.findI64 c k) (lookup (rows c) k)
  lowerbound_row : ∀ c k, IsHandle (db.lowerboundI64 c k) (lowerBound (rows c) k)
  upperbound_row : ∀ c k, IsHandle (db.upperboundI64 c k) (upperBound (rows c) k)
  idx_store_some : ∀ {c i payer id secondary itr c'},
    db.idxStore c i payer id secondary = some (itr, c') →
    entries c' i = put (entries c i) ⟨.mk (rank i secondary) id, itr, ⟨secondary, payer⟩⟩ ∧
      (∀ j, j ≠ i → entries c' j = entries c j) ∧ rows c' = rows c
  idx_update_some : ∀ {c i x payer secondary c'}, x ∈ entries c i →
    db.idxUpdate c i x.itr payer secondary = some c' →
    entries c' i = put (remove (entries c i) x.key)
        ⟨.mk (rank i secondary) x.key.primary, x.itr, ⟨secondary, billed payer x.val.payer⟩⟩ ∧
      (∀ j, j ≠ i → entries c' j = entries c j) ∧ rows c' = rows c
  idx_remove : ∀ {c i x}, x ∈ entries c i → ∃ c', db.idxRemove c i x.itr = some c' ∧
    entries c' i = remove (entries c i) x.key ∧ (∀ j, j ≠ i → entries c' j = entries c j) ∧
      rows c' = rows c
  idx_next : ∀ {c i x}, x ∈ entries c i →
    IsHandleOf (db.idxNext c i x.itr) IndexKey.primary (upperBound (entries c i) x.key)
  idx_previous : ∀ {c i x}, x ∈ entries c i →
    IsHandleOf (db.idxPrevious c i x.itr) IndexKey.primary (before (entries c i) x.key)
  idx_end : ∀ c i, entries c i ≠ [] → db.idxEnd c i ≠ -1
  idx_previous_end : ∀ c i, db.idxEnd c i ≠ -1 →
    IsHandleOf (db.idxPrevious c i (db.idxEnd c i)) IndexKey.primary (entries c i).getLast?
  idx_find_primary : ∀ {c i x}, x ∈ entries c i →
    (∀ y ∈ entries c i, y.key.primary = x.key.primary → y = x) →
    db.idxFindPrimary c i x.key.primary = x.itr
  idx_lowerbound : ∀ c i secondary, IsHandleOf (db.idxLowerbound c i secondary) IndexKey.primary
    ((entries c i).find? fun x => rank i secondary ≤ x.key.rank)
  idx_upperbound : ∀ c i secondary, IsHandleOf (db.idxUpperbound c i secondary) IndexKey.primary
    ((entries c i).find? fun x => rank i secondary < x.key.rank)

end UosioCdt.Contracts
