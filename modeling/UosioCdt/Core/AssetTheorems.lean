import UosioCdt.Core.Asset
import Mathlib.Algebra.Order.Group.Abs
import Mathlib.Algebra.Order.Ring.Abs

/-!
# Asset arithmetic is exact

`Exact` is the arithmetic of assets on the integers: an amount, its symbol, and the range
`[-(2^62-1), 2^62-1]`. Every operator refines its exact counterpart on assets in range, nothing
wraps, and so does every program.
-/

namespace UosioCdt.Core

open WrapArith

/-! ## The exact arithmetic -/

namespace Exact

/-- An integer amount of a symbol. -/
structure Quantity where
  amount : ℤ
  symbol : Symbol

/-- A quantity of the tokens of a contract. -/
structure ExtQuantity where
  quantity : Quantity
  contract : Name

/-- The largest magnitude of an amount. -/
def limit : ℤ := 2 ^ 62 - 1

/-- A quantity with an amount in range. -/
def quantity (n : ℤ) (symbol : Symbol) : Option Quantity :=
  if |n| ≤ limit then some ⟨n, symbol⟩ else none

def neg (a : Quantity) : Option Quantity := quantity (-a.amount) a.symbol

def add (a b : Quantity) : Option Quantity :=
  if b.symbol = a.symbol then quantity (a.amount + b.amount) a.symbol else none

def sub (a b : Quantity) : Option Quantity :=
  if b.symbol = a.symbol then quantity (a.amount - b.amount) a.symbol else none

def mul (a : Quantity) (k : ℤ) : Option Quantity := quantity (a.amount * k) a.symbol

def div (a : Quantity) (k : ℤ) : Option Quantity :=
  if k ≠ 0 then quantity (a.amount.tdiv k) a.symbol else none

def ratio (a b : Quantity) : Option ℤ :=
  if b.amount ≠ 0 then if a.symbol = b.symbol then some (a.amount.tdiv b.amount) else none
  else none

/-- A comparison of two integers. -/
def holds : Comparison → ℤ → ℤ → Bool
  | .eq, a, b => a = b
  | .ne, a, b => a ≠ b
  | .lt, a, b => a < b
  | .le, a, b => a ≤ b
  | .gt, a, b => a > b
  | .ge, a, b => a ≥ b

def compare (c : Comparison) (a b : Quantity) : Option Bool :=
  if a.symbol = b.symbol then some (holds c a.amount b.amount) else none

/-- An operation on quantities of one contract. -/
def ext (f : Quantity → Quantity → Option Quantity) (a b : ExtQuantity) : Option ExtQuantity :=
  if a.contract = b.contract then (f a.quantity b.quantity).map (⟨·, a.contract⟩) else none

def extNeg (a : ExtQuantity) : Option ExtQuantity := (neg a.quantity).map (⟨·, a.contract⟩)

/-- The quantities in the variables. -/
structure Vars (ι : Type) where
  assets : ι → Quantity
  exts : ι → ExtQuantity

section step

variable {ι : Type} [DecidableEq ι]

def Vars.set (v : Vars ι) (dst : ι) (x : Option Quantity) : Option (Vars ι × Out) := do
  let a ← x
  return ({ v with assets := Function.update v.assets dst a }, .none)

def Vars.setExt (v : Vars ι) (dst : ι) (x : Option ExtQuantity) : Option (Vars ι × Out) := do
  let a ← x
  return ({ v with exts := Function.update v.exts dst a }, .none)

/-- What an operation means: the exact result, or none. -/
def step (v : Vars ι) : AssetOp ι → Option (Vars ι × Out)
  | .neg dst a => v.set dst (neg (v.assets a))
  | .addAssign a b => v.set a (add (v.assets a) (v.assets b))
  | .subAssign a b => v.set a (sub (v.assets a) (v.assets b))
  | .add dst a b => v.set dst (add (v.assets a) (v.assets b))
  | .sub dst a b => v.set dst (sub (v.assets a) (v.assets b))
  | .mulAssign a k => v.set a (mul (v.assets a) k.toInt)
  | .mul dst a k => v.set dst (mul (v.assets a) k.toInt)
  | .divAssign a k => v.set a (div (v.assets a) k.toInt)
  | .div dst a k => v.set dst (div (v.assets a) k.toInt)
  | .ratio a b => do
    let n ← ratio (v.assets a) (v.assets b)
    return (v, .int n)
  | .compare c a b => do
    let r ← compare c (v.assets a) (v.assets b)
    return (v, .bool r)
  | .extNeg dst a => v.setExt dst (extNeg (v.exts a))
  | .extAddAssign a b => v.setExt a (ext add (v.exts a) (v.exts b))
  | .extSubAssign a b => v.setExt a (ext sub (v.exts a) (v.exts b))
  | .extAdd dst a b => v.setExt dst (ext add (v.exts a) (v.exts b))
  | .extSub dst a b => v.setExt dst (ext sub (v.exts a) (v.exts b))

def runOps (v : Vars ι) : List (AssetOp ι) → Option (Vars ι × List Out)
  | [] => some (v, [])
  | op :: ops => do
    let r ← step v op
    let rest ← runOps r.1 ops
    return (rest.1, r.2 :: rest.2)

end step

end Exact

/-! ## The meaning of the words -/

/-- The amount lies in the range of assets. -/
def Asset.InRange (a : Asset) : Prop := |a.amount.toInt| ≤ Exact.limit

def ExtendedAsset.InRange (a : ExtendedAsset) : Prop := a.quantity.InRange

def Vars.InRange {ι : Type} (v : Vars ι) : Prop :=
  (∀ i, (v.assets i).InRange) ∧ ∀ i, (v.exts i).InRange

def Asset.exact (a : Asset) : Exact.Quantity := ⟨a.amount.toInt, a.symbol⟩

def ExtendedAsset.exact (a : ExtendedAsset) : Exact.ExtQuantity := ⟨a.quantity.exact, a.contract⟩

def Vars.exact {ι : Type} (v : Vars ι) : Exact.Vars ι :=
  ⟨fun i => (v.assets i).exact, fun i => (v.exts i).exact⟩

/-- An asset in range with the exact amount. -/
def Asset.Is (a : Asset) (q : Exact.Quantity) : Prop := a.InRange ∧ a.exact = q

def ExtendedAsset.Is (a : ExtendedAsset) (q : Exact.ExtQuantity) : Prop := a.InRange ∧ a.exact = q

def Vars.Is {ι : Type} (v : Vars ι) (w : Exact.Vars ι) : Prop := v.InRange ∧ v.exact = w

lemma toInt_maxAmount : maxAmount.toInt = Exact.limit := by decide

lemma toInt_neg_maxAmount : (-maxAmount).toInt = -Exact.limit := by decide

lemma Asset.InRange.bounds {a : Asset} (h : a.InRange) :
    -(2 ^ 62) < a.amount.toInt ∧ a.amount.toInt < 2 ^ 62 := by
  have hbound := abs_le.mp h
  rw [Exact.limit] at hbound
  omega

lemma fits_of_abs_le {n : ℤ} (h : |n| ≤ Exact.limit) : Fits 64 n := by
  have hbound := abs_le.mp h
  rw [Exact.limit] at hbound
  constructor <;> omega

lemma Exact.quantity_eq (n : ℤ) (symbol : Symbol) :
    Exact.quantity n symbol =
      if -Exact.limit ≤ n then if n ≤ Exact.limit then some ⟨n, symbol⟩ else none else none := by
  rw [Exact.quantity]
  simp only [abs_le]
  split_ifs <;> tauto

/-! ## The operators -/

/-- The two range checks behind an addition or a subtraction. -/
lemma refines_range (a : Asset) {r : BitVec 64} {n : ℤ} (hr : r.toInt = n) (msg₁ msg₂ : String) :
    Refines Asset.Is (do
      check ((-maxAmount).sle r) msg₁
      check (r.sle maxAmount) msg₂
      return { a with amount := r }) (Exact.quantity n a.symbol) := by
  rw [Exact.quantity_eq]
  refine .check _ ?_ fun hlo => .check _ ?_ fun hhi => .pure ⟨?_, ?_⟩
  · rw [BitVec.sle_iff_toInt_le, toInt_neg_maxAmount, hr]
  · rw [BitVec.sle_iff_toInt_le, toInt_maxAmount, hr]
  · simpa only [Asset.InRange, hr] using abs_le.mpr ⟨hlo, hhi⟩
  · rw [Asset.exact, hr]

namespace Asset

variable {a b : Asset}

lemma refines_neg (ha : a.InRange) : Refines Asset.Is a.neg (Exact.neg a.exact) := by
  have hrange : |-a.amount.toInt| ≤ Exact.limit := by rwa [abs_neg]
  have hneg : Exact.neg a.exact = some ⟨-a.amount.toInt, a.symbol⟩ := if_pos hrange
  rw [hneg]
  refine .word (fits_of_abs_le hrange) fun r hr => .pure ⟨?_, ?_⟩
  · simpa only [InRange, hr] using hrange
  · rw [exact, hr]

lemma refines_addAssign (ha : a.InRange) (hb : b.InRange) :
    Refines Asset.Is (a.addAssign b) (Exact.add a.exact b.exact) := by
  have hboundA := ha.bounds
  have hboundB := hb.bounds
  refine .check _ decide_eq_true_iff fun _ => .word ?_ fun r hr => refines_range a hr _ _
  constructor <;> omega

lemma refines_subAssign (ha : a.InRange) (hb : b.InRange) :
    Refines Asset.Is (a.subAssign b) (Exact.sub a.exact b.exact) := by
  have hboundA := ha.bounds
  have hboundB := hb.bounds
  refine .check _ decide_eq_true_iff fun _ => .word ?_ fun r hr => refines_range a hr _ _
  constructor <;> omega

/-- The product of two words fits in 128 bits. -/
lemma fits_mul (x y : BitVec 64) (hx : |x.toInt| ≤ Exact.limit) : Fits 128 (x.toInt * y.toInt) := by
  have hy : |y.toInt| ≤ 2 ^ 63 := by
    have hfits := fits_toInt y
    exact abs_le.mpr ⟨by have := hfits.1; omega, by have := hfits.2; omega⟩
  have hprod : |x.toInt * y.toInt| ≤ Exact.limit * 2 ^ 63 := by
    rw [abs_mul]
    exact mul_le_mul hx hy (abs_nonneg _) (by decide)
  have hbound := abs_le.mp hprod
  rw [Exact.limit] at hbound
  constructor <;> omega

lemma refines_mulAssign (ha : a.InRange) (k : BitVec 64) :
    Refines Asset.Is (a.mulAssign k) (Exact.mul a.exact k.toInt) := by
  have hmax : (maxAmount.signExtend 128).toInt = Exact.limit := by decide
  have hmin : ((-maxAmount).signExtend 128).toInt = -Exact.limit := by decide
  have hwide (x : BitVec 64) : Fits 128 x.toInt := (fits_toInt x).mono (by decide)
  have hmul : Exact.mul a.exact k.toInt =
      if a.amount.toInt * k.toInt ≤ Exact.limit then
        if -Exact.limit ≤ a.amount.toInt * k.toInt then
          some ⟨a.amount.toInt * k.toInt, a.symbol⟩ else none else none := by
    rw [Exact.mul, exact, Exact.quantity_eq]
    split_ifs <;> rfl
  rw [hmul]
  refine .word (hwide _) fun x hx => .word (hwide _) fun y hy => ?_
  rw [WrapArith.mul, hx, hy]
  refine .word (fits_mul _ _ ha) fun r hr => .check _ ?_ fun hhi => .check _ ?_ fun hlo => ?_
  · rw [BitVec.sle_iff_toInt_le, hmax, hr]
  · rw [BitVec.sle_iff_toInt_le, hmin, hr]
  · have hrange : |r.toInt| ≤ Exact.limit := hr ▸ abs_le.mpr ⟨hlo, hhi⟩
    refine .word (fits_of_abs_le hrange) fun s hs => .pure ⟨?_, ?_⟩
    · simpa only [InRange, hs] using hrange
    · rw [exact, hs, hr]

/-- A quotient is no larger than its dividend. -/
lemma abs_tdiv_le {x : BitVec 64} (y : BitVec 64) (hx : |x.toInt| ≤ Exact.limit) :
    |x.toInt.tdiv y.toInt| ≤ Exact.limit := by
  have hnat : (x.toInt.tdiv y.toInt).natAbs ≤ x.toInt.natAbs := by
    rw [Int.natAbs_tdiv]
    exact Nat.div_le_self _ _
  have hle : |x.toInt.tdiv y.toInt| ≤ |x.toInt| := by
    rw [Int.abs_eq_natAbs, Int.abs_eq_natAbs]
    exact_mod_cast hnat
  exact hle.trans hx

lemma toInt_ne_zero_iff {x : BitVec 64} : x ≠ 0 ↔ x.toInt ≠ 0 := by
  rw [ne_eq, ne_eq, ← BitVec.toInt_inj]
  rfl

lemma refines_divAssign (ha : a.InRange) (k : BitVec 64) :
    Refines Asset.Is (a.divAssign k) (Exact.div a.exact k.toInt) := by
  have hquot := abs_tdiv_le k ha
  have hdiv : Exact.div a.exact k.toInt =
      if k.toInt ≠ 0 then
        if True then some ⟨a.amount.toInt.tdiv k.toInt, a.symbol⟩ else none else none := by
    rw [Exact.div, exact, Exact.quantity, if_pos hquot, if_pos trivial]
  have hmin : a.amount ≠ BitVec.intMin 64 := by
    rintro heq
    have hbound := ha.bounds
    rw [heq] at hbound
    exact absurd hbound (by decide)
  rw [hdiv]
  refine .check _ ?_ fun hk => .check _ ?_ fun _ =>
    .div (toInt_ne_zero_iff.mpr hk) (fits_of_abs_le hquot) fun r hr => .pure ⟨?_, ?_⟩
  · rw [decide_eq_true_iff, toInt_ne_zero_iff]
  · simp [hmin]
  · simpa only [InRange, hr] using hquot
  · rw [exact, hr]

lemma refines_ratio (ha : a.InRange) (b : Asset) :
    Refines (fun r n => r.toInt = n) (a.ratio b) (Exact.ratio a.exact b.exact) := by
  refine .check _ ?_ fun hb => .check _ decide_eq_true_iff fun _ => ?_
  · rw [decide_eq_true_iff, toInt_ne_zero_iff]
    rfl
  · have hquot := fits_of_abs_le (abs_tdiv_le b.amount ha)
    have hcond : ¬ (b.amount = 0 ∨ ¬ Fits 64 (a.amount.toInt.tdiv b.amount.toInt)) :=
      fun hc => hc.elim (toInt_ne_zero_iff.mpr hb) (· hquot)
    rw [WrapArith.div, if_neg hcond]
    exact ⟨by simp [word, hquot], toInt_ofInt hquot⟩

lemma words_eq_holds (c : Comparison) (x y : BitVec 64) :
    c.words x y = Exact.holds c x.toInt y.toInt := by
  cases c <;>
    simp [Comparison.words, Exact.holds, BitVec.toInt_inj, BitVec.slt, BitVec.sle]

lemma refines_compare (c : Comparison) (a b : Asset) :
    Refines (fun r s => r = s) (a.compare c b) (Exact.compare c a.exact b.exact) :=
  .check _ decide_eq_true_iff fun _ => .pure (words_eq_holds c a.amount b.amount)

end Asset

/-! ## Extended assets -/

/-- A quantity of the contract of `a`. -/
lemma refines_ofQuantity (contract : Name) {x : Op Asset} {y : Option Exact.Quantity}
    (h : Refines Asset.Is x y) :
    Refines ExtendedAsset.Is (do
      let quantity ← x
      return { quantity := quantity, contract := contract }) (y.map (⟨·, contract⟩)) := by
  rw [Option.map_eq_bind]
  refine h.bind fun a q haq => .pure ⟨haq.1, ?_⟩
  rw [ExtendedAsset.exact, haq.2]

/-- An operator on the quantities of one contract. -/
lemma refines_ext {a b : ExtendedAsset} {f : Exact.Quantity → Exact.Quantity → Option Exact.Quantity}
    {x : Op Asset} (h : Refines Asset.Is x (f a.quantity.exact b.quantity.exact)) :
    Refines ExtendedAsset.Is (do
      check (a.contract = b.contract) "type mismatch"
      let quantity ← x
      return { quantity := quantity, contract := a.contract })
      (Exact.ext f a.exact b.exact) :=
  .check _ decide_eq_true_iff fun _ => refines_ofQuantity a.contract h

/-! ## Programs -/

section programs

variable {ι : Type} [DecidableEq ι]

/-- Variables in range with the exact quantities, and the same further result. -/
def Vars.Step {α : Type} (r : Vars ι × α) (s : Exact.Vars ι × α) : Prop := r.1.Is s.1 ∧ r.2 = s.2

lemma refines_set {v : Vars ι} (hv : v.InRange) (dst : ι) {x : Op Asset}
    {y : Option Exact.Quantity} (h : Refines Asset.Is x y) :
    Refines Vars.Step (v.set dst x) (v.exact.set dst y) := by
  refine h.bind fun a q haq => .pure ⟨⟨⟨fun i => ?_, hv.2⟩, ?_⟩, rfl⟩
  · by_cases hi : i = dst
    · subst hi
      simpa using haq.1
    · simpa [hi] using hv.1 i
  · rw [Vars.exact, Vars.exact, ← haq.2]
    congr 1
    funext i
    by_cases hi : i = dst
    · subst hi
      simp
    · simp [hi]

lemma refines_setExt {v : Vars ι} (hv : v.InRange) (dst : ι) {x : Op ExtendedAsset}
    {y : Option Exact.ExtQuantity} (h : Refines ExtendedAsset.Is x y) :
    Refines Vars.Step (v.setExt dst x) (v.exact.setExt dst y) := by
  refine h.bind fun a q haq => .pure ⟨⟨⟨hv.1, fun i => ?_⟩, ?_⟩, rfl⟩
  · by_cases hi : i = dst
    · subst hi
      simpa using haq.1
    · simpa [hi] using hv.2 i
  · rw [Vars.exact, Vars.exact, ← haq.2]
    congr 1
    funext i
    by_cases hi : i = dst
    · subst hi
      simp
    · simp [hi]

/-- One operation is its exact meaning. -/
lemma refines_step {v : Vars ι} (hv : v.InRange) (op : AssetOp ι) :
    Refines Vars.Step (op.step v) (Exact.step v.exact op) := by
  have hasset := hv.1
  have hext : ∀ i, (v.exts i).quantity.InRange := hv.2
  cases op with
  | neg dst a => exact refines_set hv dst (Asset.refines_neg (hasset a))
  | addAssign a b => exact refines_set hv a (Asset.refines_addAssign (hasset a) (hasset b))
  | subAssign a b => exact refines_set hv a (Asset.refines_subAssign (hasset a) (hasset b))
  | add dst a b => exact refines_set hv dst (Asset.refines_addAssign (hasset a) (hasset b))
  | sub dst a b => exact refines_set hv dst (Asset.refines_subAssign (hasset a) (hasset b))
  | mulAssign a k => exact refines_set hv a (Asset.refines_mulAssign (hasset a) k)
  | mul dst a k => exact refines_set hv dst (Asset.refines_mulAssign (hasset a) k)
  | divAssign a k => exact refines_set hv a (Asset.refines_divAssign (hasset a) k)
  | div dst a k => exact refines_set hv dst (Asset.refines_divAssign (hasset a) k)
  | ratio a b =>
    refine (Asset.refines_ratio (hasset a) (v.assets b)).bind fun r n hrn => .pure ?_
    exact ⟨⟨hv, rfl⟩, by rw [hrn]⟩
  | compare c a b =>
    refine (Asset.refines_compare c (v.assets a) (v.assets b)).bind fun r s hrs => .pure ?_
    exact ⟨⟨hv, rfl⟩, by rw [hrs]⟩
  | extNeg dst a =>
    exact refines_setExt hv dst (refines_ofQuantity _ (Asset.refines_neg (hext a)))
  | extAddAssign a b =>
    exact refines_setExt hv a (refines_ext (Asset.refines_addAssign (hext a) (hext b)))
  | extSubAssign a b =>
    exact refines_setExt hv a (refines_ext (Asset.refines_subAssign (hext a) (hext b)))
  | extAdd dst a b =>
    exact refines_setExt hv dst (refines_ext (Asset.refines_addAssign (hext a) (hext b)))
  | extSub dst a b =>
    exact refines_setExt hv dst (refines_ext (Asset.refines_subAssign (hext a) (hext b)))

/-- On assets in range every program computes the exact results, fails exactly where they do not
exist, wraps nowhere and leaves assets in range. -/
theorem refines_runOps (v : Vars ι) (hv : v.InRange) (ops : List (AssetOp ι)) :
    Refines Vars.Step (runOps v ops) (Exact.runOps v.exact ops) := by
  induction ops generalizing v with
  | nil => exact .pure ⟨⟨hv, rfl⟩, rfl⟩
  | cons op ops ih =>
    refine (refines_step hv op).bind fun r s hrs => ?_
    obtain ⟨⟨hrange, hexact⟩, hout⟩ := hrs
    rw [← hexact]
    refine (ih r.1 hrange).bind fun r' s' hrs' => .pure ⟨hrs'.1, ?_⟩
    rw [hout, hrs'.2]

end programs

/-- The ends of the range. -/
def limits : Vars Bool where
  assets _ := ⟨maxAmount, ⟨0⟩⟩
  exts _ := ⟨⟨-maxAmount, ⟨0⟩⟩, ⟨0⟩⟩

lemma inRange_limits : limits.InRange := by
  have hmax : |maxAmount.toInt| ≤ Exact.limit := by decide
  have hmin : |(-maxAmount).toInt| ≤ Exact.limit := by decide
  exact ⟨fun _ => hmax, fun _ => hmin⟩

theorem refines_runOps_limits :
    Refines Vars.Step
      (runOps limits [.neg true true, .addAssign true false, .ratio true false, .extNeg false true])
      (Exact.runOps limits.exact
        [.neg true true, .addAssign true false, .ratio true false, .extNeg false true]) :=
  refines_runOps limits inRange_limits _

end UosioCdt.Core
