import UosioCdt.Core.Time
import UosioCdt.Lib.SlotClock
import Mathlib.Tactic.NormNum

/-!
# The conversions of time are those of an exact clock

Slots and microseconds are those of a `SlotClock`. Between the epoch and the end of the last slot,
the conversions of the source compute it, without a signed operation that wraps.
-/

namespace UosioCdt.Core

open WrapArith

/-- The half-second slots of the chain, in microseconds. -/
def blockClock : SlotClock where
  epoch := 946684800000000
  interval := 500000
  interval_pos := by decide

/-- The microseconds of a time point. -/
def TimePoint.micros (t : TimePoint) : ℤ := t.elapsed.count.toInt

/-- The number of a slot. -/
def BlockTimestamp.number (b : BlockTimestamp) : ℤ := b.slot.toNat

/-- The time lies in a slot that a block timestamp can hold. -/
def TimePoint.InSlots (t : TimePoint) : Prop :=
  blockClock.epoch ≤ t.micros ∧ t.micros < blockClock.time (2 ^ 32)

/-! ## Words -/

section words

variable {n : ℤ}

lemma BlockTimestamp.number_lt (b : BlockTimestamp) : b.number < 2 ^ 32 := by
  have hlt := b.slot.isLt
  unfold BlockTimestamp.number
  omega

/-- Thirty-two unsigned bits as a signed word. -/
lemma toInt_setWidth (x : BitVec 32) : (x.setWidth 64).toInt = x.toNat := by
  have hlt := x.isLt
  rw [BitVec.toInt_setWidth, Int.bmod_eq_of_le_mul_two] <;> omega

/-- The lower bits of a signed word count as the integer does. -/
lemma setWidth_eq_ofInt (x : BitVec 64) : x.setWidth 32 = BitVec.ofInt 32 x.toInt := by
  apply BitVec.eq_of_toNat_eq
  rw [BitVec.toNat_setWidth, BitVec.toNat_ofInt, BitVec.toInt_eq_toNat_bmod, Int.bmod_def]
  have hlt := x.isLt
  split <;> omega

/-- A slot number in range is kept by the conversion to 32 bits. -/
lemma BlockTimestamp.number_ofInt (hlo : 0 ≤ n) (hhi : n < 2 ^ 32) :
    BlockTimestamp.number ⟨BitVec.ofInt 32 n⟩ = n := by
  unfold BlockTimestamp.number
  rw [BitVec.toNat_ofInt]
  omega

lemma BlockTimestamp.ofInt_number (b : BlockTimestamp) : ⟨BitVec.ofInt 32 b.number⟩ = b := by
  obtain ⟨slot⟩ := b
  show (⟨BitVec.ofInt 32 (slot.toNat : ℤ)⟩ : BlockTimestamp) = ⟨slot⟩
  rw [BitVec.ofInt_natCast, BitVec.ofNat_toNat, BitVec.setWidth_eq]

end words

/-! ## What each conversion computes -/

lemma seconds_returns (s : BitVec 32) :
    Returns (fun m => m.count.toInt = (s.toNat : ℤ) * 1000000) (seconds (s.setWidth 64)) := by
  have hlt := s.isLt
  have hfits : Fits 64 ((s.setWidth 64).toInt * 1000000) := by
    rw [toInt_setWidth, Fits]
    omega
  refine (Returns.word hfits).bind fun r hr => .pure ?_
  rw [hr, toInt_setWidth]

lemma TimePointSec.toTimePoint_returns (x : TimePointSec) :
    Returns (fun t => t.micros = (x.utcSeconds.toNat : ℤ) * 1000000) x.toTimePoint :=
  (seconds_returns _).bind fun _ h => .pure h

/-- The block timestamp of a number of slots, of which the lower 32 bits are kept. -/
def BlockTimestamp.ofNumber (n : ℤ) : BlockTimestamp := ⟨BitVec.ofInt 32 n⟩

namespace BlockTimestamp

/-- The last step of both `set_time_point`s, on the milliseconds. -/
lemma slot_returns {n : ℤ} (h : Fits 64 (n - 946684800000)) {ms : BitVec 64} (hms : ms.toInt = n) :
    Returns (· = ofNumber ((n - 946684800000).tdiv 500)) (do
      let msec ← WrapArith.sub ms blockTimestampEpoch
      let slot ← WrapArith.div .trap msec blockIntervalMs
      return (⟨slot.setWidth 32⟩ : BlockTimestamp) : Op BlockTimestamp) := by
  rw [← hms] at h
  refine (Returns.word h).bind fun msec hmsec => ?_
  refine (Returns.div (by decide) (fits_tdiv_of_pos msec (by decide))).bind fun slot hslot =>
    .pure ?_
  rw [setWidth_eq_ofInt, hslot, hmsec, hms]
  rfl

theorem ofTimePoint_eq (t : TimePoint) :
    ofTimePoint t = pure (ofNumber ((t.micros.tdiv 1000 - 946684800000).tdiv 500)) := by
  apply Returns.eq
  refine (Returns.div (by decide) (fits_tdiv_of_pos _ (by decide))).bind fun ms hms => ?_
  have hsub : Fits 64 (t.micros.tdiv 1000 - 946684800000) := by
    have hfits : Fits 64 t.micros := fits_toInt t.elapsed.count
    unfold Fits at *
    rw [tdiv_eq_ite]
    split <;> omega
  exact slot_returns hsub hms

theorem ofTimePointSec_eq (x : TimePointSec) : ofTimePointSec x
    = pure (ofNumber (((x.utcSeconds.toNat : ℤ) * 1000 - 946684800000).tdiv 500)) := by
  have hlt := x.utcSeconds.isLt
  apply Returns.eq
  have hmul : Fits 64 ((x.utcSeconds.setWidth 64).toInt * 1000) := by
    rw [toInt_setWidth, Fits]
    omega
  refine (Returns.word hmul).bind fun ms hms => ?_
  rw [toInt_setWidth] at hms
  have hsub : Fits 64 ((x.utcSeconds.toNat : ℤ) * 1000 - 946684800000) := by
    unfold Fits
    omega
  exact slot_returns hsub hms

/-- Every slot has its time point, that of the clock. -/
theorem toTimePoint_returns (b : BlockTimestamp) :
    Returns (fun t => t.micros = blockClock.time b.number) b.toTimePoint := by
  have hlt := b.slot.isLt
  have hmul : Fits 64 ((b.slot.setWidth 64).toInt * 500) := by
    rw [toInt_setWidth, Fits]
    omega
  refine (Returns.word hmul).bind fun slots hslots => ?_
  rw [toInt_setWidth] at hslots
  have hadd : Fits 64 (slots.toInt + 946684800000) := by
    rw [hslots, Fits]
    omega
  refine (Returns.word hadd).bind fun msec hmsec => ?_
  have hmicro : Fits 64 (msec.toInt * 1000) := by
    rw [hmsec, hslots, Fits]
    omega
  refine ((Returns.word hmicro).bind fun c hc => .pure ?_).bind fun m hm => .pure hm
  show c.toInt = 946684800000000 + (b.slot.toNat : ℤ) * 500000
  rw [hc, hmsec, hslots]
  ring

end BlockTimestamp

theorem TimePointSec.ofTimePoint_returns (t : TimePoint) :
    Returns (fun x => x.utcSeconds = BitVec.ofInt 32 (t.micros.tdiv 1000000))
      (TimePointSec.ofTimePoint t) := by
  refine (Returns.div (by decide) (fits_tdiv_of_pos _ (by decide))).bind fun s hs => .pure ?_
  rw [setWidth_eq_ofInt, hs]
  rfl

/-! ## On the clock -/

/-- A time in the slots has the slot of the clock. -/
lemma BlockTimestamp.ofTimePoint_of_inSlots {t : TimePoint} (h : t.InSlots) :
    ofTimePoint t = pure (ofNumber (blockClock.slot t.micros)) := by
  obtain ⟨hlo, -⟩ := h
  have hepoch : (946684800000000 : ℤ) ≤ t.micros := hlo
  have hmicros : 0 ≤ t.micros := by omega
  have hms : 0 ≤ t.micros / 1000 - 946684800000 := by omega
  have hunits : (t.micros / 1000 - 946684800000) / 500 = blockClock.slot t.micros :=
    blockClock.slot_of_units (show (0 : ℤ) < 1000 by decide) rfl rfl t.micros
  rw [ofTimePoint_eq, Int.tdiv_eq_ediv_of_nonneg hmicros, Int.tdiv_eq_ediv_of_nonneg hms, hunits]

/-- The slot of a time in the slots is one that a block timestamp holds. -/
lemma TimePoint.InSlots.number {t : TimePoint} (h : t.InSlots) :
    (BlockTimestamp.ofNumber (blockClock.slot t.micros)).number = blockClock.slot t.micros :=
  BlockTimestamp.number_ofInt (blockClock.slot_nonneg h.1) (blockClock.slot_lt_iff.mpr h.2)

/-- The time of a slot lies in the slots. -/
lemma BlockTimestamp.inSlots_of_micros {b : BlockTimestamp} {t : TimePoint}
    (ht : t.micros = blockClock.time b.number) : t.InSlots := by
  have hnonneg : 0 ≤ b.number := Int.natCast_nonneg _
  have hlt := b.number_lt
  unfold TimePoint.InSlots
  rw [ht, ← blockClock.slot_lt_iff, blockClock.slot_time]
  refine ⟨?_, hlt⟩
  show (946684800000000 : ℤ) ≤ 946684800000000 + b.number * 500000
  omega

/-- The second that a slot lies in starts with an even slot. -/
lemma roundDown_time (n : ℤ) :
    SlotClock.roundDown 1000000 (blockClock.time n) = blockClock.time (n - n % 2) := by
  show (946684800000000 + n * 500000) / 1000000 * 1000000
    = 946684800000000 + (n - n % 2) * 500000
  omega

namespace BlockTimestamp

lemma toTimePoint_ofTimePoint (s : BlockTimestamp) :
    (do let t ← s.toTimePoint; ofTimePoint t : Op BlockTimestamp) = pure s := by
  apply Returns.eq
  refine (toTimePoint_returns s).bind fun t ht => ?_
  rw [ofTimePoint_of_inSlots (inSlots_of_micros ht), ht, blockClock.slot_time]
  exact .pure (ofInt_number s)

/-- Through whole seconds, a slot becomes the even slot of its second. -/
lemma toTimePointSec_ofTimePointSec (s : BlockTimestamp) :
    (do
      let t ← s.toTimePoint
      let x ← TimePointSec.ofTimePoint t
      ofTimePointSec x : Op BlockTimestamp) = pure (ofNumber (s.number - s.number % 2)) := by
  apply Returns.eq
  refine (toTimePoint_returns s).bind fun t ht => ?_
  have hnonneg : 0 ≤ s.number := Int.natCast_nonneg _
  have hlt := s.number_lt
  -- the last slot is in the year 2068, so its seconds still fit in 32 bits
  have hsecs : t.micros.tdiv 1000000 = 946684800 + s.number / 2 := by
    have htime : t.micros = 946684800000000 + s.number * 500000 := ht
    rw [Int.tdiv_eq_ediv_of_nonneg] <;> omega
  have hsec : ((BitVec.ofInt 32 (946684800 + s.number / 2)).toNat : ℤ)
      = 946684800 + s.number / 2 := by
    rw [BitVec.toNat_ofInt]
    omega
  have hslot : ((946684800 + s.number / 2) * 1000 - 946684800000).tdiv 500
      = s.number - s.number % 2 := by
    rw [Int.tdiv_eq_ediv_of_nonneg] <;> omega
  refine (TimePointSec.ofTimePoint_returns t).bind fun x hx => ?_
  rw [hsecs] at hx
  rw [ofTimePointSec_eq, hx, hsec, hslot]
  exact .pure rfl

/-- The time point of a slot is the last one at or before the time. -/
lemma ofTimePoint_toTimePoint {t : TimePoint} (h : t.InSlots) :
    ∃ b u, ofTimePoint t = pure b ∧ b.toTimePoint = pure u ∧
      u.micros ≤ t.micros ∧ t.micros < u.micros + 500000 := by
  obtain ⟨u, hu, hmicros⟩ := toTimePoint_returns (ofNumber (blockClock.slot t.micros))
  refine ⟨_, u, ofTimePoint_of_inSlots h, hu, ?_⟩
  rw [hmicros, h.number]
  exact ⟨blockClock.time_slot_le _, blockClock.lt_time_slot_add _⟩

lemma ofTimePoint_mono {t t' : TimePoint} {b b' : BlockTimestamp} (h : t.InSlots) (h' : t'.InSlots)
    (hle : t.micros ≤ t'.micros) (hb : ofTimePoint t = pure b) (hb' : ofTimePoint t' = pure b') :
    b.number ≤ b'.number := by
  have hbn : ofNumber (blockClock.slot t.micros) = b :=
    Arith.pure_inj ((ofTimePoint_of_inSlots h).symm.trans hb)
  have hbn' : ofNumber (blockClock.slot t'.micros) = b' :=
    Arith.pure_inj ((ofTimePoint_of_inSlots h').symm.trans hb')
  rw [← hbn, ← hbn', h.number, h'.number]
  exact blockClock.slot_mono hle

/-- Whole seconds take the same slot directly and through a time point, also those before the
epoch. -/
lemma ofTimePointSec_toTimePoint (x : TimePointSec) :
    ∃ b, ofTimePointSec x = pure b ∧
      (do let t ← x.toTimePoint; ofTimePoint t : Op BlockTimestamp) = pure b := by
  refine ⟨_, ofTimePointSec_eq x, Returns.eq ?_⟩
  refine (TimePointSec.toTimePoint_returns x).bind fun t ht => ?_
  have hms : t.micros.tdiv 1000 = (x.utcSeconds.toNat : ℤ) * 1000 := by
    rw [ht, Int.tdiv_eq_ediv_of_nonneg] <;> omega
  rw [ofTimePoint_eq, hms]
  exact .pure rfl

/-- A slot becomes its time point and back, and through whole seconds the slot of the truncated
second; a time in the slots lies within the half second of its slot, and later times have later
slots; seconds and their time points have the same slot. No signed operation wraps. -/
theorem conversions :
    (∀ s : BlockTimestamp,
      (do let t ← s.toTimePoint; ofTimePoint t : Op BlockTimestamp) = pure s) ∧
    (∀ s : BlockTimestamp, ∃ s' : BlockTimestamp,
      (do
        let t ← s.toTimePoint
        let x ← TimePointSec.ofTimePoint t
        ofTimePointSec x : Op BlockTimestamp) = pure s' ∧
      s'.number = s.number - s.number % 2 ∧
      blockClock.time s'.number = SlotClock.roundDown 1000000 (blockClock.time s.number)) ∧
    (∀ t : TimePoint, t.InSlots → ∃ b u, ofTimePoint t = pure b ∧ b.toTimePoint = pure u ∧
      u.micros ≤ t.micros ∧ t.micros < u.micros + 500000) ∧
    (∀ (t t' : TimePoint) (b b' : BlockTimestamp), t.InSlots → t'.InSlots → t.micros ≤ t'.micros →
      ofTimePoint t = pure b → ofTimePoint t' = pure b' → b.number ≤ b'.number) ∧
    ∀ x : TimePointSec, ∃ b, ofTimePointSec x = pure b ∧
      (do let t ← x.toTimePoint; ofTimePoint t : Op BlockTimestamp) = pure b := by
  refine ⟨toTimePoint_ofTimePoint, fun s => ?_, fun t => ofTimePoint_toTimePoint,
    fun t t' b b' => ofTimePoint_mono, ofTimePointSec_toTimePoint⟩
  have hnonneg : 0 ≤ s.number := Int.natCast_nonneg _
  have hlt := s.number_lt
  have hnumber : (ofNumber (s.number - s.number % 2)).number = s.number - s.number % 2 :=
    number_ofInt (by omega) (by omega)
  refine ⟨_, toTimePointSec_ofTimePointSec s, hnumber, ?_⟩
  rw [hnumber, roundDown_time]

/-- The last microsecond of the last slot. -/
theorem conversions_last :
    ∃ b u, ofTimePoint ⟨⟨3094168447999999⟩⟩ = pure b ∧ b.toTimePoint = pure u ∧
      u.micros ≤ 3094168447999999 ∧ 3094168447999999 < u.micros + 500000 :=
  conversions.2.2.1 ⟨⟨3094168447999999⟩⟩ ⟨by decide, by decide⟩

end BlockTimestamp

end UosioCdt.Core
