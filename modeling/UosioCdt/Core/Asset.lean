import UosioCdt.Lib.WrapArith

/-!
# `asset` and `extended_asset`

The operators of `asset.hpp` on 64-bit words, with the checks of the source in their order, and
programs that apply them to the assets of a contract.
-/

namespace UosioCdt.Core

open WrapArith

/-! ## Values -/

/-- `name` -/
structure Name where
  value : UInt64
deriving DecidableEq, Repr

/-- `symbol`: the code in the upper 56 bits, the precision in the lower 8. -/
structure Symbol where
  value : UInt64
deriving DecidableEq, Repr

/-- `asset` -/
structure Asset where
  amount : BitVec 64
  symbol : Symbol
deriving DecidableEq, Repr

/-- `extended_asset` -/
structure ExtendedAsset where
  quantity : Asset
  contract : Name
deriving DecidableEq, Repr

/-- `asset::max_amount` -/
def maxAmount : BitVec 64 := (1#64 <<< 62) - 1

/-- How an operator stops: a failed check, or a trap of the machine. -/
inductive Failure where
  | check (msg : String)
  | trap
deriving DecidableEq, Repr

abbrev Op := Arith Failure

/-- `uosio::check` -/
def check (c : Bool) (msg : String) : Op Unit := Arith.check c (.check msg)

/-! ## `asset` -/

namespace Asset

/-- `operator-()` -/
def neg (self : Asset) : Op Asset := do
  let amount ← WrapArith.neg self.amount
  return { self with amount := amount }

/-- `operator-=` -/
def subAssign (self a : Asset) : Op Asset := do
  check (a.symbol = self.symbol) "attempt to subtract asset with different symbol"
  let amount ← WrapArith.sub self.amount a.amount
  check ((-maxAmount).sle amount) "subtraction underflow"
  check (amount.sle maxAmount) "subtraction overflow"
  return { self with amount := amount }

/-- `operator+=` -/
def addAssign (self a : Asset) : Op Asset := do
  check (a.symbol = self.symbol) "attempt to add asset with different symbol"
  let amount ← WrapArith.add self.amount a.amount
  check ((-maxAmount).sle amount) "addition underflow"
  check (amount.sle maxAmount) "addition overflow"
  return { self with amount := amount }

/-- `operator+` adds to a copy. -/
def add (a b : Asset) : Op Asset := do
  let result := a
  result.addAssign b

/-- `operator-` subtracts from a copy. -/
def sub (a b : Asset) : Op Asset := do
  let result := a
  result.subAssign b

/-- `operator*=`, with the product in 128 bits -/
def mulAssign (self : Asset) (a : BitVec 64) : Op Asset := do
  let amount128 ← convert 128 self.amount
  let a128 ← convert 128 a
  let tmp ← WrapArith.mul amount128 a128
  check (tmp.sle (maxAmount.signExtend 128)) "multiplication overflow"
  check (((-maxAmount).signExtend 128).sle tmp) "multiplication underflow"
  let amount ← convert 64 tmp
  return { self with amount := amount }

/-- `operator*`, the same on both sides -/
def mul (a : Asset) (b : BitVec 64) : Op Asset := do
  let result := a
  result.mulAssign b

/-- `operator/=` -/
def divAssign (self : Asset) (a : BitVec 64) : Op Asset := do
  check (a ≠ 0) "divide by zero"
  check (!(self.amount = BitVec.intMin 64 && a = -1)) "signed division overflow"
  let amount ← WrapArith.div .trap self.amount a
  return { self with amount := amount }

/-- `operator/` by a number -/
def div (a : Asset) (b : BitVec 64) : Op Asset := do
  let result := a
  result.divAssign b

/-- `operator/` by an asset -/
def ratio (a b : Asset) : Op (BitVec 64) := do
  check (b.amount ≠ 0) "divide by zero"
  check (a.symbol = b.symbol) "comparison of assets with different symbols is not allowed"
  WrapArith.div .trap a.amount b.amount

end Asset

/-- The six comparisons. -/
inductive Comparison where
  | eq | ne | lt | le | gt | ge
deriving DecidableEq, Repr

/-- A comparison of two signed words. -/
def Comparison.words : Comparison → BitVec 64 → BitVec 64 → Bool
  | .eq, a, b => a = b
  | .ne, a, b => !decide (a = b)
  | .lt, a, b => a.slt b
  | .le, a, b => a.sle b
  | .gt, a, b => b.slt a
  | .ge, a, b => b.sle a

/-- `operator==`, `!=`, `<`, `<=`, `>` and `>=` on assets -/
def Asset.compare (c : Comparison) (a b : Asset) : Op Bool := do
  check (a.symbol = b.symbol) "comparison of assets with different symbols is not allowed"
  return c.words a.amount b.amount

/-! ## `extended_asset` -/

namespace ExtendedAsset

/-- `operator-()` -/
def neg (self : ExtendedAsset) : Op ExtendedAsset := do
  let quantity ← self.quantity.neg
  return { quantity := quantity, contract := self.contract }

/-- `operator-` -/
def sub (a b : ExtendedAsset) : Op ExtendedAsset := do
  check (a.contract = b.contract) "type mismatch"
  let quantity ← a.quantity.sub b.quantity
  return { quantity := quantity, contract := a.contract }

/-- `operator+` -/
def add (a b : ExtendedAsset) : Op ExtendedAsset := do
  check (a.contract = b.contract) "type mismatch"
  let quantity ← a.quantity.add b.quantity
  return { quantity := quantity, contract := a.contract }

/-- `operator+=` -/
def addAssign (a b : ExtendedAsset) : Op ExtendedAsset := do
  check (a.contract = b.contract) "type mismatch"
  let quantity ← a.quantity.addAssign b.quantity
  return { a with quantity := quantity }

/-- `operator-=` -/
def subAssign (a b : ExtendedAsset) : Op ExtendedAsset := do
  check (a.contract = b.contract) "type mismatch"
  let quantity ← a.quantity.subAssign b.quantity
  return { a with quantity := quantity }

end ExtendedAsset

/-! ## Programs -/

/-- An operation on the assets in the variables `ι`. -/
inductive AssetOp (ι : Type) where
  | neg (dst a : ι)
  | addAssign (a b : ι)
  | subAssign (a b : ι)
  | add (dst a b : ι)
  | sub (dst a b : ι)
  | mulAssign (a : ι) (k : BitVec 64)
  | mul (dst a : ι) (k : BitVec 64)
  | divAssign (a : ι) (k : BitVec 64)
  | div (dst a : ι) (k : BitVec 64)
  | ratio (a b : ι)
  | compare (c : Comparison) (a b : ι)
  | extNeg (dst a : ι)
  | extAddAssign (a b : ι)
  | extSubAssign (a b : ι)
  | extAdd (dst a b : ι)
  | extSub (dst a b : ι)

/-- The assets in the variables. -/
structure Vars (ι : Type) where
  assets : ι → Asset
  exts : ι → ExtendedAsset

/-- What an operation returns besides the assets it writes. -/
inductive Out where
  | none
  | int (n : ℤ)
  | bool (b : Bool)
deriving DecidableEq, Repr

section step

variable {ι : Type} [DecidableEq ι]

/-- Write the result of an operator to a variable. -/
def Vars.set (v : Vars ι) (dst : ι) (x : Op Asset) : Op (Vars ι × Out) := do
  let a ← x
  return ({ v with assets := Function.update v.assets dst a }, .none)

def Vars.setExt (v : Vars ι) (dst : ι) (x : Op ExtendedAsset) : Op (Vars ι × Out) := do
  let a ← x
  return ({ v with exts := Function.update v.exts dst a }, .none)

def AssetOp.step (v : Vars ι) : AssetOp ι → Op (Vars ι × Out)
  | .neg dst a => v.set dst (v.assets a).neg
  | .addAssign a b => v.set a ((v.assets a).addAssign (v.assets b))
  | .subAssign a b => v.set a ((v.assets a).subAssign (v.assets b))
  | .add dst a b => v.set dst ((v.assets a).add (v.assets b))
  | .sub dst a b => v.set dst ((v.assets a).sub (v.assets b))
  | .mulAssign a k => v.set a ((v.assets a).mulAssign k)
  | .mul dst a k => v.set dst ((v.assets a).mul k)
  | .divAssign a k => v.set a ((v.assets a).divAssign k)
  | .div dst a k => v.set dst ((v.assets a).div k)
  | .ratio a b => do
    let n ← (v.assets a).ratio (v.assets b)
    return (v, .int n.toInt)
  | .compare c a b => do
    let r ← (v.assets a).compare c (v.assets b)
    return (v, .bool r)
  | .extNeg dst a => v.setExt dst (v.exts a).neg
  | .extAddAssign a b => v.setExt a ((v.exts a).addAssign (v.exts b))
  | .extSubAssign a b => v.setExt a ((v.exts a).subAssign (v.exts b))
  | .extAdd dst a b => v.setExt dst ((v.exts a).add (v.exts b))
  | .extSub dst a b => v.setExt dst ((v.exts a).sub (v.exts b))

/-- Run operations one after another, and collect what they return. -/
def runOps (v : Vars ι) : List (AssetOp ι) → Op (Vars ι × List Out)
  | [] => return (v, [])
  | op :: ops => do
    let r ← op.step v
    let rest ← runOps r.1 ops
    return (rest.1, r.2 :: rest.2)

end step

end UosioCdt.Core
