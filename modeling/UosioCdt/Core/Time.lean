import UosioCdt.Core.Asset

/-!
# `time_point`, `time_point_sec` and `block_timestamp`

The conversions of `time.hpp` between microseconds, seconds and half-second slots, on the signed
64-bit and unsigned 32-bit words of the source.
-/

namespace UosioCdt.Core

open WrapArith

/-- `microseconds`, a signed count -/
structure Microseconds where
  count : BitVec 64
deriving DecidableEq, Repr

/-- `time_point` -/
structure TimePoint where
  elapsed : Microseconds
deriving DecidableEq, Repr

/-- `time_point_sec`, unsigned seconds -/
structure TimePointSec where
  utcSeconds : BitVec 32
deriving DecidableEq, Repr

/-- `block_timestamp`, an unsigned slot -/
structure BlockTimestamp where
  slot : BitVec 32
deriving DecidableEq, Repr

/-- `seconds` -/
def seconds (s : BitVec 64) : Op Microseconds := do
  let c ← WrapArith.mul s 1000000
  return ⟨c⟩

/-- `milliseconds` -/
def milliseconds (s : BitVec 64) : Op Microseconds := do
  let c ← WrapArith.mul s 1000
  return ⟨c⟩

/-- `time_point_sec( const time_point& )` keeps the lower 32 bits of the seconds. -/
def TimePointSec.ofTimePoint (t : TimePoint) : Op TimePointSec := do
  let s ← WrapArith.div .trap t.elapsed.count 1000000
  return ⟨s.setWidth 32⟩

/-- `time_point_sec::operator time_point` -/
def TimePointSec.toTimePoint (self : TimePointSec) : Op TimePoint := do
  let elapsed ← seconds (self.utcSeconds.setWidth 64)
  return ⟨elapsed⟩

namespace BlockTimestamp

def blockIntervalMs : BitVec 64 := 500

def blockTimestampEpoch : BitVec 64 := 946684800000

/-- `next` -/
def next (self : BlockTimestamp) : Op BlockTimestamp := do
  check (1 ≤ BitVec.allOnes 32 - self.slot) "block timestamp overflow"
  return ⟨self.slot + 1⟩

/-- `operator time_point`, and `to_time_point` -/
def toTimePoint (self : BlockTimestamp) : Op TimePoint := do
  let msec ← WrapArith.mul (self.slot.setWidth 64) blockIntervalMs
  let msec ← WrapArith.add msec blockTimestampEpoch
  let elapsed ← milliseconds msec
  return ⟨elapsed⟩

/-- `set_time_point` for a `time_point` -/
def ofTimePoint (t : TimePoint) : Op BlockTimestamp := do
  let microSinceEpoch := t.elapsed.count
  let msecSinceEpoch ← WrapArith.div .trap microSinceEpoch 1000
  let msec ← WrapArith.sub msecSinceEpoch blockTimestampEpoch
  let slot ← WrapArith.div .trap msec blockIntervalMs
  return ⟨slot.setWidth 32⟩

/-- `set_time_point` for a `time_point_sec` -/
def ofTimePointSec (t : TimePointSec) : Op BlockTimestamp := do
  let secSinceEpoch : BitVec 64 := t.utcSeconds.setWidth 64
  let msec ← WrapArith.mul secSinceEpoch 1000
  let msec ← WrapArith.sub msec blockTimestampEpoch
  let slot ← WrapArith.div .trap msec blockIntervalMs
  return ⟨slot.setWidth 32⟩

end BlockTimestamp

end UosioCdt.Core
