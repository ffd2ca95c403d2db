import Mathlib.Data.Int.ConditionallyCompleteOrder
import Mathlib.Order.GaloisConnection.Basic
import Mathlib.Tactic.Ring
import Mathlib.Tactic.Linarith

/-!
# Slots of equal length

* `SlotClock`: slots of one length that start at an epoch;
* `time` is where a slot starts and `slot` is the slot that a time lies in. They form a Galois
  connection, so both are monotone and `slot` rounds down;
* `roundDown`: a time as a coarser clock shows it.
-/

/-- An epoch, and the length of the slots behind it. -/
structure SlotClock where
  epoch : ℤ
  interval : ℤ
  interval_pos : 0 < interval

namespace SlotClock

variable (c : SlotClock)

/-- The start of a slot. -/
def time (n : ℤ) : ℤ := c.epoch + n * c.interval

/-- The slot that a time lies in. -/
def slot (t : ℤ) : ℤ := (t - c.epoch) / c.interval

/-- A slot has started at a time when it is not behind the slot of the time. -/
theorem gc : GaloisConnection c.time c.slot := by
  intro n t
  rw [time, slot, Int.le_ediv_iff_mul_le c.interval_pos]
  constructor <;> intro h <;> linarith

lemma slot_mono : Monotone c.slot := c.gc.monotone_u

/-- The start of a slot lies in the slot. -/
lemma slot_time (n : ℤ) : c.slot (c.time n) = n := by
  rw [slot, time, add_sub_cancel_left, Int.mul_ediv_cancel _ c.interval_pos.ne']

/-- A time lies between the start of its slot and the start of the next one. -/
lemma time_slot_le (t : ℤ) : c.time (c.slot t) ≤ t := c.gc.l_u_le t

lemma lt_time_slot_add (t : ℤ) : t < c.time (c.slot t) + c.interval := by
  have hnext : t < c.time (c.slot t + 1) := by
    rw [← not_le, c.gc.le_iff_le]
    omega
  calc t < c.time (c.slot t + 1) := hnext
    _ = c.time (c.slot t) + c.interval := by
      rw [time, time]
      ring

lemma slot_nonneg {t : ℤ} (h : c.epoch ≤ t) : 0 ≤ c.slot t :=
  Int.ediv_nonneg (by linarith) c.interval_pos.le

/-- The times before the start of a slot lie in slots before it. -/
lemma slot_lt_iff {t n : ℤ} : c.slot t < n ↔ t < c.time n := by
  rw [← not_le, ← not_le, c.gc.le_iff_le]

/-- A time, rounded down to a multiple of a unit. -/
def roundDown (unit t : ℤ) : ℤ := t / unit * unit

/-- When the epoch and the interval are multiples of a unit, the slot of a time is that of the time
rounded down to the unit. -/
lemma slot_of_units {unit e i : ℤ} (hunit : 0 < unit) (he : c.epoch = e * unit)
    (hi : c.interval = i * unit) (t : ℤ) : (t / unit - e) / i = c.slot t := by
  rw [slot, he, hi, mul_comm i, ← Int.ediv_ediv_of_nonneg hunit.le,
    Int.sub_mul_ediv_right _ _ hunit.ne']

end SlotClock
