import UosioCdt.Contracts.MultiIndex

/-!
# `multi_index::index`: a secondary index

An index finds an entry in its own table, and from its primary key the item. The handle of the entry
is kept in the item.
-/

namespace UosioCdt.Contracts.MultiIndex.Index

variable {C T κ ρ : Type} [LinearOrder ρ] [Inhabited T] (m : MultiIndex C T κ ρ) (number : ℕ)

/-! ## Iterators -/

/-- `__iters[Number] = itr`. -/
def setIter (p : ℕ) (itr : ℤ) : Fn C T Unit :=
  writeItem p fun item => { item with iters := Function.update item.iters number itr }

/-- The handle of an item's entry is looked up where it is not known. -/
def ensureIter (p : ℕ) : Fn C T Unit := do
  let item ← readItem p
  if item.iters number = -1 then
    let idxitr := m.db.idxFindPrimary (← get).chain number (m.primaryKey item.obj)
    setIter number p idxitr
  else return ()

/-- From an entry, its handle and the primary key next to it, to the item. -/
def itemOf (entry : ℤ × ℕ) : Fn C T (Option ℕ) := do
  let obj ← deref (← m.find entry.2)
  setIter number obj entry.1
  return some obj

/-- `iterator_to`. -/
def iteratorTo (p : ℕ) : Fn C T (Option ℕ) := do
  let objitem ← readItem p
  check (objitem.idx = (← get).self) "object passed to iterator_to is not in multi_index"
  ensureIter m number p
  return some p

/-- `const_iterator::operator++`. -/
def next : Option ℕ → Fn C T (Option ℕ)
  | none => throw "cannot increment end iterator"
  | some p => do
    ensureIter m number p
    let item ← readItem p
    let entry := m.db.idxNext (← get).chain number (item.iters number)
    if entry.1 < 0 then return none
    else itemOf m number entry

/-- `const_iterator::operator--`. -/
def previous : Option ℕ → Fn C T (Option ℕ)
  | none => do
    let ei := m.db.idxEnd (← get).chain number
    check (ei ≠ -1) "cannot decrement end iterator when the index is empty"
    let entry := m.db.idxPrevious (← get).chain number ei
    check (entry.1 ≥ 0) "cannot decrement end iterator when the index is empty"
    itemOf m number entry
  | some p => do
    ensureIter m number p
    let item ← readItem p
    let entry := m.db.idxPrevious (← get).chain number (item.iters number)
    check (entry.1 ≥ 0) "cannot decrement iterator at beginning of index"
    itemOf m number entry

/-! ## Lookups -/

def lowerBound (secondary : κ) : Fn C T (Option ℕ) := do
  let entry := m.db.idxLowerbound (← get).chain number secondary
  if entry.1 < 0 then return none
  else itemOf m number entry

def upperBound (secondary : κ) : Fn C T (Option ℕ) := do
  let entry := m.db.idxUpperbound (← get).chain number secondary
  if entry.1 < 0 then return none
  else itemOf m number entry

/-- `begin`. -/
def cbegin : Fn C T (Option ℕ) := lowerBound m number (m.trueLowest number)

def find (secondary : κ) : Fn C T (Option ℕ) := do
  match ← lowerBound m number secondary with
  | none => return none
  | some lb =>
    let item ← readItem lb
    if m.equal number secondary (m.extractSecondaryKey number item.obj) then return some lb
    else return none

def requireFind (secondary : κ) (errorMsg : String) : Fn C T (Option ℕ) := do
  let itr ← lowerBound m number secondary
  check (itr ≠ none) errorMsg
  let lb ← deref itr
  let item ← readItem lb
  check (m.equal number secondary (m.extractSecondaryKey number item.obj)) errorMsg
  return some lb

def getObj (secondary : κ) (errorMsg : String) : Fn C T ℕ := do
  let result ← find m number secondary
  check (result ≠ none) errorMsg
  deref result

/-! ## Changes -/

/-- `erase`, which moves on along the index first. -/
def erase (itr : Option ℕ) : Fn C T (Option ℕ) := do
  check (itr ≠ none) "cannot pass end iterator to erase"
  let obj ← deref itr
  let itr ← next m number itr
  m.eraseObj obj
  return itr

end UosioCdt.Contracts.MultiIndex.Index
