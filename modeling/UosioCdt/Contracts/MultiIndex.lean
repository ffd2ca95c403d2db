import UosioCdt.Contracts.Chain

/-!
# `multi_index`: the primary table

One object of the class template over a table. Its items are objects of their own: `_items_vector`
owns them, references and iterators point to them, and erasing an entry of the vector discards the
item. A discarded item's memory keeps what was in it, since `free` only clears a bit of the block's
header; that it is read is noted.
-/

namespace UosioCdt.Contracts

/-! ## State -/

/-- What the template and the constructor are given: the row type with its serialization and
extractors, and where the table is. -/
structure MultiIndex (C T κ ρ : Type) [LinearOrder ρ] where
  db : Intrinsics C κ
  /-- `_code` and `current_receiver()`. -/
  code : ℕ
  receiver : ℕ
  pack : T → List UInt8
  unpack : List UInt8 → Except String T
  unpack_pack : ∀ obj, unpack (pack obj) = .ok obj
  primaryKey : T → ℕ
  primaryKey_lt : ∀ obj, primaryKey obj < 2 ^ 64
  /-- `sizeof...(Indices)`. -/
  indices : ℕ
  indices_le : indices ≤ 16
  extractSecondaryKey : ℕ → T → κ
  /-- The order of an index, and the `==` of its key type. -/
  rank : ℕ → κ → ρ
  equal : ℕ → κ → κ → Bool
  equal_iff : ∀ i a b, equal i a b = true ↔ rank i a = rank i b
  trueLowest : ℕ → κ
  trueLowest_le : ∀ i k, rank i (trueLowest i) ≤ rank i k

/-- A row in memory, with the handles of its row and of its index entries. -/
structure Item (T : Type) where
  obj : T
  /-- Which `multi_index` it belongs to. -/
  idx : ℕ
  primaryItr : ℤ
  iters : ℕ → ℤ

instance {T : Type} [Inhabited T] : Inhabited (Item T) := ⟨⟨default, 0, 0, fun _ => 0⟩⟩

structure ItemPtr where
  item : ℕ
  primaryKey : ℕ
  primaryItr : ℤ
deriving DecidableEq

/-- A `multi_index` object, and the memory its items are in. -/
structure Cache (T : Type) where
  self : ℕ
  items : ℕ → Item T
  allocated : ℕ
  itemsVector : List ItemPtr
  nextPrimaryKey : ℕ
  /-- An item was read after it was discarded. -/
  readDiscarded : Bool

structure State (C T : Type) extends Cache T where
  chain : C

/-- `no_available_primary_key` and `unset_next_primary_key`. -/
def noAvailablePrimaryKey : ℕ := 2 ^ 64 - 2

def unsetNextPrimaryKey : ℕ := 2 ^ 64 - 1

/-- The constructor: nothing is cached. -/
def Cache.new {T : Type} [Inhabited T] (self : ℕ) : Cache T where
  self := self
  items := fun _ => default
  allocated := 0
  itemsVector := []
  nextPrimaryKey := unsetNextPrimaryKey
  readDiscarded := false

/-- The item is owned by the vector. -/
def Cache.Live {T : Type} (s : Cache T) (p : ℕ) : Prop := ∃ ptr ∈ s.itemsVector, ptr.item = p

instance {T : Type} (s : Cache T) (p : ℕ) : Decidable (s.Live p) :=
  inferInstanceAs (Decidable (∃ ptr ∈ s.itemsVector, ptr.item = p))

/-- A function of the class: it returns, or `uosio::check` aborts. -/
abbrev Fn (C T α : Type) := EStateM String (State C T) α

namespace MultiIndex

variable {C T κ ρ : Type} [LinearOrder ρ] [Inhabited T] (m : MultiIndex C T κ ρ)

/-! ## Memory -/

def check (test : Prop) [Decidable test] (message : String) : Fn C T Unit :=
  if test then pure () else throw message

def readItem (p : ℕ) : Fn C T (Item T) := do
  let s ← get
  modify fun s => { s with readDiscarded := s.readDiscarded || !decide (s.Live p) }
  return s.items p

def writeItem (p : ℕ) (f : Item T → Item T) : Fn C T Unit :=
  modify fun s => { s with items := Function.update s.items p (f (s.items p)) }

/-- `_items_vector.emplace_back` with a new item. -/
def emplaceBack (itm : Item T) : Fn C T ℕ := do
  let s ← get
  let pk := m.primaryKey itm.obj
  set { s with
    items := Function.update s.items s.allocated itm
    allocated := s.allocated + 1
    itemsVector := s.itemsVector ++ [ItemPtr.mk s.allocated pk itm.primaryItr] }
  return s.allocated

/-- What a pointer points to. There is nothing at the null pointer. -/
def deref : Option ℕ → Fn C T ℕ
  | some p => pure p
  | none => throw "null pointer"

/-- A call that the chain may refuse. -/
def intrinsic {α : Type} (call : C → Option (α × C)) : Fn C T α := do
  match call (← get).chain with
  | some (a, chain) =>
    modify fun s => { s with chain := chain }
    return a
  | none => throw "transaction aborted"

def intrinsicUnit (call : C → Option C) : Fn C T Unit :=
  intrinsic fun c => (call c).map fun c' => ((), c')

/-! ## Items -/

/-- `std::find_if` over the vector by primary key: `ptrs` is what is left to look at, from the
back. -/
def findItem (primary : ℕ) : List ItemPtr → Fn C T (Option ItemPtr)
  | [] => pure none
  | ptr :: ptrs => do
    let item ← readItem ptr.item
    if m.primaryKey item.obj = primary then return some ptr
    else findItem primary ptrs

def loadObjectByPrimaryIterator (itr : ℤ) : Fn C T ℕ := do
  let s ← get
  match s.itemsVector.reverse.find? fun ptr => ptr.primaryItr = itr with
  | some ptr => return ptr.item
  | none =>
    match m.db.getI64 s.chain itr with
    | none => throw "error reading iterator"
    | some buffer =>
      match m.unpack buffer with
      | .error message => throw message
      | .ok val => m.emplaceBack ⟨val, s.self, itr, fun _ => -1⟩

/-! ## Iterators -/

/-- `iterator_to`. An iterator is the address of its item, `none` at the end. -/
def iteratorTo (p : ℕ) : Fn C T (Option ℕ) := do
  let objitem ← readItem p
  check (objitem.idx = (← get).self) "object passed to iterator_to is not in multi_index"
  return some p

/-- `const_iterator::operator++`. -/
def next : Option ℕ → Fn C T (Option ℕ)
  | none => throw "cannot increment end iterator"
  | some p => do
    let item ← readItem p
    let nextItr := (m.db.nextI64 (← get).chain item.primaryItr).1
    if nextItr < 0 then return none
    else some <$> m.loadObjectByPrimaryIterator nextItr

/-- `const_iterator::operator--`. -/
def previous : Option ℕ → Fn C T (Option ℕ)
  | none => do
    let ei := m.db.endI64 (← get).chain
    check (ei ≠ -1) "cannot decrement end iterator when the table is empty"
    let prevItr := (m.db.previousI64 (← get).chain ei).1
    check (prevItr ≥ 0) "cannot decrement end iterator when the table is empty"
    some <$> m.loadObjectByPrimaryIterator prevItr
  | some p => do
    let item ← readItem p
    let prevItr := (m.db.previousI64 (← get).chain item.primaryItr).1
    check (prevItr ≥ 0) "cannot decrement iterator at beginning of table"
    some <$> m.loadObjectByPrimaryIterator prevItr

/-! ## Lookups -/

def lowerBound (primary : ℕ) : Fn C T (Option ℕ) := do
  let itr := m.db.lowerboundI64 (← get).chain primary
  if itr < 0 then return none
  else some <$> m.loadObjectByPrimaryIterator itr

def upperBound (primary : ℕ) : Fn C T (Option ℕ) := do
  let itr := m.db.upperboundI64 (← get).chain primary
  if itr < 0 then return none
  else some <$> m.loadObjectByPrimaryIterator itr

/-- `begin`. -/
def cbegin : Fn C T (Option ℕ) := m.lowerBound 0

def find (primary : ℕ) : Fn C T (Option ℕ) := do
  match ← m.findItem primary (← get).itemsVector.reverse with
  | some ptr => iteratorTo ptr.item
  | none =>
    let itr := m.db.findI64 (← get).chain primary
    if itr < 0 then return none
    else iteratorTo (← m.loadObjectByPrimaryIterator itr)

def requireFind (primary : ℕ) (errorMsg : String) : Fn C T (Option ℕ) := do
  match ← m.findItem primary (← get).itemsVector.reverse with
  | some ptr => iteratorTo ptr.item
  | none =>
    let itr := m.db.findI64 (← get).chain primary
    check (itr ≥ 0) errorMsg
    iteratorTo (← m.loadObjectByPrimaryIterator itr)

def getObj (primary : ℕ) (errorMsg : String) : Fn C T ℕ := do
  let result ← m.find primary
  check (result ≠ none) errorMsg
  deref result

/-! ## Primary keys -/

/-- `_next_primary_key` after a row with the key `pk`. -/
def raiseNextPrimaryKey (pk : ℕ) : Fn C T Unit :=
  modify fun s =>
    if pk ≥ s.nextPrimaryKey then
      { s with nextPrimaryKey := if pk ≥ noAvailablePrimaryKey then noAvailablePrimaryKey
          else pk + 1 }
    else s

def setNextPrimaryKey (next : ℕ) : Fn C T Unit := modify fun s => { s with nextPrimaryKey := next }

/-- The first call looks at the last row of the table. -/
def initNextPrimaryKey : Fn C T Unit := do
  if (← m.cbegin) = none then setNextPrimaryKey 0
  else
    let itr ← m.previous none
    let item ← readItem (← deref itr)
    let pk := m.primaryKey item.obj
    setNextPrimaryKey (if pk ≥ noAvailablePrimaryKey then noAvailablePrimaryKey else pk + 1)

def ensureNextPrimaryKey : Fn C T Unit := do
  if (← get).nextPrimaryKey = unsetNextPrimaryKey then m.initNextPrimaryKey
  else return ()

def availablePrimaryKey : Fn C T ℕ := do
  m.ensureNextPrimaryKey
  check ((← get).nextPrimaryKey < noAvailablePrimaryKey)
    "next primary key in table is at autoincrement limit"
  return (← get).nextPrimaryKey

/-! ## Changes -/

/-- The entries of a new row, one for each index. -/
def storeIndices (payer : ℕ) (obj : T) : Fn C T (ℕ → ℤ) :=
  (List.range m.indices).foldlM (fun iters number => do
    let itr ← intrinsic fun c =>
      m.db.idxStore c number payer (m.primaryKey obj) (m.extractSecondaryKey number obj)
    return Function.update iters number itr) fun _ => 0

/-- `emplace`: `constructor` fills in a default object. -/
def emplace (payer : ℕ) (constructor : T → T) : Fn C T (Option ℕ) := do
  check (m.code = m.receiver) "cannot create objects in table of another contract"
  let obj := constructor default
  let pk := m.primaryKey obj
  let primaryItr ← intrinsic fun c => m.db.storeI64 c payer pk (m.pack obj)
  raiseNextPrimaryKey pk
  let iters ← m.storeIndices payer obj
  some <$> m.emplaceBack ⟨obj, (← get).self, primaryItr, iters⟩

/-- The handle of an item's entry, looked up the first time it is needed. -/
def modifyItrOf (p pk number : ℕ) : Fn C T ℤ := do
  let item ← readItem p
  if item.iters number < 0 then
    let itr := m.db.idxFindPrimary (← get).chain number pk
    writeItem p fun item => { item with iters := Function.update item.iters number itr }
    return itr
  else return item.iters number

/-- What `modify` does for one index: an entry is updated where its key is not what it was. -/
def modifyIndex (p pk payer : ℕ) (secondaryKeys : ℕ → κ) [DecidableEq κ] (number : ℕ) :
    Fn C T Unit := do
  let item ← readItem p
  let secondary := m.extractSecondaryKey number item.obj
  if secondaryKeys number ≠ secondary then
    let indexitr ← m.modifyItrOf p pk number
    intrinsicUnit fun c => m.db.idxUpdate c number indexitr payer secondary
  else return ()

/-- `modify` through a reference. -/
def modifyObj [DecidableEq κ] (p payer : ℕ) (updater : T → T) : Fn C T Unit := do
  let objitem ← readItem p
  check (objitem.idx = (← get).self) "object passed to modify is not in multi_index"
  check (m.code = m.receiver) "cannot modify objects in table of another contract"
  let secondaryKeys := fun number => m.extractSecondaryKey number objitem.obj
  let pk := m.primaryKey objitem.obj
  writeItem p fun item => { item with obj := updater item.obj }
  let objitem ← readItem p
  check (pk = m.primaryKey objitem.obj)
    "updater cannot change primary key when modifying an object"
  intrinsicUnit fun c => m.db.updateI64 c objitem.primaryItr payer (m.pack objitem.obj)
  raiseNextPrimaryKey pk
  forM (List.range m.indices) (m.modifyIndex p pk payer secondaryKeys)

/-- `modify` through an iterator, of the table or of an index. -/
def modifyItr [DecidableEq κ] (itr : Option ℕ) (payer : ℕ) (updater : T → T) : Fn C T Unit := do
  check (itr ≠ none) "cannot pass end iterator to modify"
  m.modifyObj (← deref itr) payer updater

/-- The handle of an item's entry, looked up but not kept. -/
def eraseItr (p number : ℕ) : Fn C T ℤ := do
  let objitem ← readItem p
  if objitem.iters number < 0 then
    let objitem ← readItem p
    return m.db.idxFindPrimary (← get).chain number (m.primaryKey objitem.obj)
  else return objitem.iters number

/-- What `erase` does for one index. The item is gone by now. -/
def eraseIndex (p number : ℕ) : Fn C T Unit := do
  let i ← m.eraseItr p number
  if i ≥ 0 then intrinsicUnit fun c => m.db.idxRemove c number i
  else return ()

/-- `_items_vector.erase`, of the entry that the search from the back has found. -/
def discard (ptr : ItemPtr) : Fn C T Unit :=
  modify fun s => { s with itemsVector := (s.itemsVector.reverse.erase ptr).reverse }

/-- `erase` through a reference. -/
def eraseObj (p : ℕ) : Fn C T Unit := do
  let objitem ← readItem p
  check (objitem.idx = (← get).self) "object passed to erase is not in multi_index"
  check (m.code = m.receiver) "cannot erase objects in table of another contract"
  let pk := m.primaryKey objitem.obj
  match ← m.findItem pk (← get).itemsVector.reverse with
  | none => throw "attempt to remove object that was not in multi_index"
  | some ptr =>
    discard ptr
    let objitem ← readItem p
    intrinsicUnit fun c => m.db.removeI64 c objitem.primaryItr
    forM (List.range m.indices) (m.eraseIndex p)

/-- `erase` through an iterator, which moves on first. -/
def erase (itr : Option ℕ) : Fn C T (Option ℕ) := do
  check (itr ≠ none) "cannot pass end iterator to erase"
  let obj ← deref itr
  let itr ← m.next itr
  m.eraseObj obj
  return itr

end MultiIndex

end UosioCdt.Contracts
