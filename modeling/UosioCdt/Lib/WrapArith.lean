import Mathlib.Algebra.Order.Ring.Int
import Mathlib.Tactic.Lemma

/-!
# Signed machine arithmetic that may wrap

* `Arith`: a computation that fails with an error or returns a value, and that knows whether some
  signed operation on the way has wrapped;
* the operations on `w`-bit words, each the word of the exact integer result;
* `Refines`: the computation is that of an exact specification and nothing wraps. Its rules follow
  the structure of the computation;
* `Returns`: the computation returns a value with a property, and nothing wraps.
-/

namespace WrapArith

/-! ## Computations -/

/-- A value or an error, and whether an operation has wrapped. -/
structure Arith (ε α : Type) where
  value : Except ε α
  wrapped : Bool

namespace Arith

variable {ε α β : Type}

/-- Sequencing; an error ends the computation. -/
def bind (x : Arith ε α) (f : α → Arith ε β) : Arith ε β :=
  match x.value with
  | .ok a => ⟨(f a).value, x.wrapped || (f a).wrapped⟩
  | .error e => ⟨.error e, x.wrapped⟩

instance : Monad (Arith ε) where
  pure a := ⟨.ok a, false⟩
  bind := bind

/-- Stop with an error. -/
def fail (e : ε) : Arith ε α := ⟨.error e, false⟩

/-- Stop unless the condition holds. -/
def check (c : Bool) (e : ε) : Arith ε Unit := if c then pure () else fail e

lemma bind_value {x : Arith ε α} {a : α} (h : x.value = .ok a) (f : α → Arith ε β) :
    (x >>= f).value = (f a).value := by
  show (Arith.bind x f).value = _
  unfold Arith.bind
  rw [h]

lemma bind_assoc {γ : Type} (x : Arith ε α) (f : α → Arith ε β) (g : β → Arith ε γ) :
    x >>= f >>= g = x >>= fun a => f a >>= g := by
  obtain ⟨value, wrapped⟩ := x
  cases value with
  | error e => rfl
  | ok a =>
    show bind (bind _ f) g = bind _ fun a => bind (f a) g
    simp only [bind]
    cases (f a).value with
    | error e => rfl
    | ok b => simp only [Bool.or_assoc]

lemma pure_inj {a b : α} (h : (pure a : Arith ε α) = pure b) : a = b :=
  Except.ok.inj (congrArg value h)

lemma check_value (c : Bool) (e : ε) (x : Arith ε α) :
    (check c e >>= fun _ => x).value = if c then x.value else .error e := by
  cases c <;> rfl

end Arith

/-! ## Words -/

/-- The integer is the value of a signed `w`-bit word. -/
def Fits (w : ℕ) (n : ℤ) : Prop := -(2 ^ w : ℤ) ≤ 2 * n ∧ 2 * n < 2 ^ w

instance (w : ℕ) (n : ℤ) : Decidable (Fits w n) := by
  unfold Fits
  infer_instance

section words

variable {ε : Type} {w : ℕ}

/-- The word of an integer; it wraps when the integer does not fit. -/
def word (w : ℕ) (n : ℤ) : Arith ε (BitVec w) := ⟨.ok (BitVec.ofInt w n), !decide (Fits w n)⟩

def neg (a : BitVec w) : Arith ε (BitVec w) := word w (-a.toInt)
def add (a b : BitVec w) : Arith ε (BitVec w) := word w (a.toInt + b.toInt)
def sub (a b : BitVec w) : Arith ε (BitVec w) := word w (a.toInt - b.toInt)
def mul (a b : BitVec w) : Arith ε (BitVec w) := word w (a.toInt * b.toInt)

/-- A conversion to another width. -/
def convert (v : ℕ) (a : BitVec w) : Arith ε (BitVec v) := word v a.toInt

/-- The truncated quotient. The machine traps on a zero divisor and on a quotient that does not
fit. -/
def div (trap : ε) (a b : BitVec w) : Arith ε (BitVec w) :=
  if b = 0 ∨ ¬ Fits w (a.toInt.tdiv b.toInt) then .fail trap else word w (a.toInt.tdiv b.toInt)

/-- The remainder of the truncated quotient. The machine traps on a zero divisor. -/
def rem (trap : ε) (a b : BitVec w) : Arith ε (BitVec w) :=
  if b = 0 then .fail trap else word w (a.toInt.tmod b.toInt)

/-- The words are those of two's complement arithmetic. -/
lemma add_value (a b : BitVec w) : (add a b : Arith ε _).value = .ok (a + b) := by
  simp [add, word, BitVec.ofInt_add]

lemma sub_value (a b : BitVec w) : (sub a b : Arith ε _).value = .ok (a - b) := by
  simp [sub, word, Int.sub_eq_add_neg, BitVec.ofInt_add, BitVec.ofInt_neg, BitVec.sub_eq_add_neg]

lemma fits_toInt (a : BitVec w) : Fits w a.toInt :=
  ⟨BitVec.le_two_mul_toInt, BitVec.two_mul_toInt_lt⟩

lemma toInt_ofInt {n : ℤ} (h : Fits w n) : (BitVec.ofInt w n).toInt = n := by
  rw [BitVec.toInt_ofInt]
  obtain ⟨hlo, hhi⟩ := h
  exact Int.bmod_eq_of_le_mul_two (by push_cast; omega) (by push_cast; omega)

/-- More bits hold more integers. -/
lemma Fits.mono {v : ℕ} {n : ℤ} (h : Fits w n) (hwv : w ≤ v) : Fits v n := by
  have hpow : (2 : ℤ) ^ w ≤ 2 ^ v := pow_le_pow_right₀ (by decide) hwv
  exact ⟨(neg_le_neg hpow).trans h.1, h.2.trans_le hpow⟩

/-- A truncated quotient rounds towards 0. -/
lemma tdiv_eq_ite (a n : ℤ) : a.tdiv n = if 0 ≤ a then a / n else -(-a / n) := by
  split
  · rename_i ha
    exact Int.tdiv_eq_ediv_of_nonneg ha
  · rename_i ha
    rw [← Int.tdiv_eq_ediv_of_nonneg (show 0 ≤ -a by omega), Int.neg_tdiv, neg_neg]

/-- A word divided by a positive number fits. -/
lemma fits_tdiv_of_pos (a : BitVec w) {n : ℤ} (hn : 0 < n) : Fits w (a.toInt.tdiv n) := by
  have hfits := fits_toInt a
  unfold Fits at *
  rw [tdiv_eq_ite]
  split
  · rename_i ha
    have hle := Int.ediv_le_self n ha
    have hnonneg := Int.ediv_nonneg ha hn.le
    omega
  · have hneg : 0 ≤ -a.toInt := by omega
    have hle := Int.ediv_le_self n hneg
    have hnonneg := Int.ediv_nonneg hneg hn.le
    omega

end words

/-! ## Refinement -/

section refines

variable {ε α β γ δ : Type} {R : α → β → Prop} {S : γ → δ → Prop}

/-- Nothing wraps; the computation fails where the specification has no result, and otherwise their
results are related. -/
def Refines (R : α → β → Prop) (x : Arith ε α) (y : Option β) : Prop :=
  x.wrapped = false ∧
    match x.value, y with
    | .ok a, some b => R a b
    | .error _, none => True
    | _, _ => False

lemma Refines.pure {a : α} {b : β} (h : R a b) : Refines R (pure a : Arith ε α) (some b) := ⟨rfl, h⟩

/-- One computation after another. -/
lemma Refines.bind {x : Arith ε α} {y : Option β} {f : α → Arith ε γ} {g : β → Option δ}
    (h : Refines R x y) (hf : ∀ a b, R a b → Refines S (f a) (g b)) :
    Refines S (x >>= f) (y >>= g) := by
  obtain ⟨hwrap, hval⟩ := h
  change Refines S (Arith.bind x f) (y.bind g)
  unfold Arith.bind
  split at hval
  · rename_i a b hx
    obtain ⟨hwrap', hval'⟩ := hf a b hval
    simpa [Refines, hx, hwrap, hwrap'] using hval'
  · rename_i e hx
    simp [Refines, hx, hwrap]
  · exact hval.elim

/-- A check goes with a guard. -/
lemma Refines.check {c : Bool} {p : Prop} [Decidable p] (e : ε) (h : c = true ↔ p) {x : Arith ε α}
    {y : Option β} (hx : p → Refines R x y) :
    Refines R (Arith.check c e >>= fun _ => x) (if p then y else none) := by
  by_cases hp : p
  · rw [if_pos hp, Arith.check, if_pos (h.mpr hp)]
    have hrefines := hx hp
    exact ⟨by simpa [Bind.bind, Arith.bind, Pure.pure] using hrefines.1, hrefines.2⟩
  · rw [if_neg hp, Arith.check, if_neg (mt h.mp hp)]
    exact ⟨rfl, trivial⟩

/-- An integer that fits is computed exactly. -/
lemma Refines.word {w : ℕ} {n : ℤ} (h : Fits w n) {f : BitVec w → Arith ε α} {y : Option β}
    (hf : ∀ r : BitVec w, r.toInt = n → Refines R (f r) y) :
    Refines R (WrapArith.word w n >>= f) y := by
  obtain ⟨hwrap, hval⟩ := hf (BitVec.ofInt w n) (toInt_ofInt h)
  refine ⟨?_, hval⟩
  simpa [Bind.bind, Arith.bind, WrapArith.word, h] using hwrap

/-- A quotient that fits is computed exactly. -/
lemma Refines.div {w : ℕ} {trap : ε} {a b : BitVec w} (hb : b ≠ 0)
    (h : Fits w (a.toInt.tdiv b.toInt)) {f : BitVec w → Arith ε α} {y : Option β}
    (hf : ∀ r : BitVec w, r.toInt = a.toInt.tdiv b.toInt → Refines R (f r) y) :
    Refines R (WrapArith.div trap a b >>= f) y := by
  have hcond : ¬ (b = 0 ∨ ¬ Fits w (a.toInt.tdiv b.toInt)) := fun hc => hc.elim hb (· h)
  rw [WrapArith.div, if_neg hcond]
  exact .word h hf

end refines

/-! ## Computations that return -/

section returns

variable {ε α β : Type} {P : α → Prop} {Q : β → Prop}

/-- The computation returns a value with the property, and nothing wraps. -/
def Returns (P : α → Prop) (x : Arith ε α) : Prop := ∃ a, x = pure a ∧ P a

lemma Returns.pure {a : α} (h : P a) : Returns P (pure a : Arith ε α) := ⟨a, rfl, h⟩

lemma Returns.bind {x : Arith ε α} {f : α → Arith ε β} (h : Returns P x)
    (hf : ∀ a, P a → Returns Q (f a)) : Returns Q (x >>= f) := by
  obtain ⟨a, rfl, ha⟩ := h
  exact hf a ha

lemma Returns.eq {x : Arith ε α} {a : α} (h : Returns (· = a) x) : x = Pure.pure a := by
  obtain ⟨b, hx, rfl⟩ := h
  exact hx

lemma Returns.word {w : ℕ} {n : ℤ} (h : Fits w n) :
    Returns (fun r : BitVec w => r.toInt = n) (WrapArith.word w n : Arith ε _) := by
  refine ⟨BitVec.ofInt w n, ?_, toInt_ofInt h⟩
  rw [WrapArith.word, decide_eq_true h]
  rfl

lemma Returns.div {w : ℕ} {trap : ε} {a b : BitVec w} (hb : b ≠ 0)
    (h : Fits w (a.toInt.tdiv b.toInt)) :
    Returns (fun r : BitVec w => r.toInt = a.toInt.tdiv b.toInt) (WrapArith.div trap a b) := by
  have hcond : ¬ (b = 0 ∨ ¬ Fits w (a.toInt.tdiv b.toInt)) := fun hc => hc.elim hb (· h)
  rw [WrapArith.div, if_neg hcond]
  exact .word h

lemma Returns.rem {w : ℕ} {trap : ε} {a b : BitVec w} (hb : b ≠ 0)
    (h : Fits w (a.toInt.tmod b.toInt)) :
    Returns (fun r : BitVec w => r.toInt = a.toInt.tmod b.toInt) (WrapArith.rem trap a b) := by
  rw [WrapArith.rem, if_neg hb]
  exact .word h

/-- What has wrapped is not undone. -/
lemma wrapped_bind {x : Arith ε α} (h : x.wrapped = true) (f : α → Arith ε β) :
    (x >>= f).wrapped = true := by
  show (Arith.bind x f).wrapped = true
  unfold Arith.bind
  split
  · show (x.wrapped || _) = true
    rw [h, Bool.true_or]
  · exact h

end returns

end WrapArith
