import UosioCdt.Contracts.MultiIndex

/-!
# `singleton`: a table with one row

Every object has a `multi_index` of its own over the table. The objects for one code and scope share
the database.
-/

namespace UosioCdt.Contracts

/-- What the template and the constructor are given: the type of the value with its serialization,
and where the table is. -/
structure Singleton (C T : Type) where
  db : Intrinsics C Unit
  /-- The code, and `current_receiver()`. -/
  code : ℕ
  receiver : ℕ
  /-- `SingletonName`. -/
  pkValue : ℕ
  pkValue_lt : pkValue < 2 ^ 64
  pack : T → List UInt8
  unpack : List UInt8 → Except String T
  unpack_pack : ∀ value, unpack (pack value) = .ok value

namespace Singleton

variable {C T : Type} [Inhabited T] (s : Singleton C T)

/-! ## The table -/

/-- `row`. -/
structure Value (T : Type) where
  value : T
deriving Inhabited

omit [Inhabited T] in
lemma unpack_value (r : Value T) : (s.unpack (s.pack r.value)).map Value.mk = .ok r := by
  rw [s.unpack_pack]
  rfl

/-- `table`, which has no index. -/
def table : MultiIndex C (Value T) Unit ℕ where
  db := s.db
  code := s.code
  receiver := s.receiver
  pack r := s.pack r.value
  unpack data := (s.unpack data).map Value.mk
  unpack_pack := s.unpack_value
  primaryKey _ := s.pkValue
  primaryKey_lt _ := s.pkValue_lt
  indices := 0
  indices_le := Nat.zero_le 16
  extractSecondaryKey _ _ := ()
  rank _ _ := 0
  equal _ _ _ := true
  equal_iff _ _ _ := ⟨fun _ => rfl, fun _ => rfl⟩
  trueLowest _ := ()
  trueLowest_le _ _ := le_rfl

/-! ## The functions of the class -/

/-- `itr->value`. -/
def valueAt (itr : Option ℕ) : Fn C (Value T) T := do
  let item ← MultiIndex.readItem (← MultiIndex.deref itr)
  return item.obj.value

def exists' : Fn C (Value T) Bool := do
  let itr ← s.table.find s.pkValue
  return itr ≠ none

protected def get : Fn C (Value T) T := do
  let itr ← s.table.find s.pkValue
  MultiIndex.check (itr ≠ none) "singleton does not exist"
  valueAt itr

def getOrDefault (default_ : T) : Fn C (Value T) T := do
  let itr ← s.table.find s.pkValue
  if itr ≠ none then valueAt itr
  else return default_

def getOrCreate (billToAccount : ℕ) (default_ : T) : Fn C (Value T) T := do
  let itr ← s.table.find s.pkValue
  if itr ≠ none then valueAt itr
  else valueAt (← s.table.emplace billToAccount fun r => { r with value := default_ })

protected def set (value : T) (billToAccount : ℕ) : Fn C (Value T) Unit := do
  let itr ← s.table.find s.pkValue
  if itr ≠ none then
    s.table.modifyItr itr billToAccount fun r => { r with value := value }
  else
    let _ ← s.table.emplace billToAccount fun r => { r with value := value }

def remove : Fn C (Value T) Unit := do
  let itr ← s.table.find s.pkValue
  if itr ≠ none then
    let _ ← s.table.erase itr

/-! ## Calls -/

inductive Call (T : Type)
  | exists'
  | get
  | getOrDefault (default_ : T)
  | getOrCreate (billToAccount : ℕ) (default_ : T)
  | set (value : T) (billToAccount : ℕ)
  | remove

/-- What a call returns. -/
inductive Answer (T : Type)
  | bool (b : Bool)
  | value (value : T)
  | nothing
deriving DecidableEq

def Call.exec : Call T → Fn C (Value T) (Answer T)
  | .exists' => .bool <$> s.exists'
  | .get => .value <$> s.get
  | .getOrDefault default_ => .value <$> s.getOrDefault default_
  | .getOrCreate billToAccount default_ => .value <$> s.getOrCreate billToAccount default_
  | .set value billToAccount => (fun _ => .nothing) <$> s.set value billToAccount
  | .remove => (fun _ => .nothing) <$> s.remove

omit [Inhabited T] in
/-- The database has no row of the singleton. -/
def empty (c : C) : Bool := s.db.findI64 c s.pkValue < 0

omit [Inhabited T] in
/-- A call that gets to an `emplace`, a `modify` or an `erase`. -/
def Call.writes (c : C) : Call T → Bool
  | .set _ _ => true
  | .getOrCreate _ _ => s.empty c
  | .remove => !s.empty c
  | _ => false

/-! ## Many objects -/

/-- An object, and whether another one has written since it was constructed. -/
structure Object (T : Type) where
  cache : Cache (Value T)
  outdated : Bool

structure System (C T : Type) where
  chain : C
  objects : List (Object T)

/-- A new object. -/
def System.construct (y : System C T) : System C T :=
  { y with objects := y.objects ++ [⟨Cache.new y.objects.length, false⟩] }

omit [Inhabited T] in
/-- Object `j` has made a call that ended in `t`. -/
def System.called (y : System C T) (j : ℕ) (wrote : Bool) (t : State C (Value T)) : System C T where
  chain := t.chain
  objects := y.objects.mapIdx fun i o =>
    if i = j then { o with cache := t.toCache } else { o with outdated := o.outdated || wrote }

/-- The calls of a run with what they have returned, and where it ends. -/
inductive Run (start : System C T) : List (Call T × Answer T) → System C T → Prop
  | start : Run start [] start
  | construct {calls : List (Call T × Answer T)} {y : System C T} (hrun : Run start calls y) :
      Run start calls y.construct
  | call {calls : List (Call T × Answer T)} {y : System C T} {j : ℕ} {o : Object T} {op : Call T}
      {a : Answer T} {t : State C (Value T)} (hrun : Run start calls y)
      (ho : y.objects[j]? = some o) (hfresh : o.outdated = false)
      (hexec : op.exec s ⟨o.cache, y.chain⟩ = .ok a t) :
      Run start (calls ++ [(op, a)]) (y.called j (op.writes s y.chain) t)

end Singleton

end UosioCdt.Contracts
