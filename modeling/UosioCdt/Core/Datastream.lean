import Mathlib.Tactic.Lemma

/-!
# `datastream<char*>`

The stream is three addresses of a 32-bit memory. Its checks are written as in the source: an
unsigned distance in `read`, a signed one in `write`, and one comparison in `put` and `get`. `skip`
and `seekp` move the position without a check.
-/

namespace UosioCdt.Core

/-! ## Memory -/

abbrev Mem := UInt32 → UInt8

/-- `memcpy` -/
def memcpy (mem : Mem) (dst src n : UInt32) : Mem := fun a =>
  if a - dst < n then mem (src + (a - dst)) else mem a

/-- The memory with one byte written. -/
def Mem.store (mem : Mem) (dst : UInt32) (c : UInt8) : Mem := fun a => if a = dst then c else mem a

/-! ## The stream -/

/-- `datastream<char*>` -/
structure Datastream where
  start : UInt32
  pos : UInt32
  end_ : UInt32
deriving DecidableEq, Repr

namespace Datastream

/-- The constructor. -/
def mk' (start s : UInt32) : Datastream := ⟨start, start, start + s⟩

def skip (ds : Datastream) (s : UInt32) : Datastream := { ds with pos := ds.pos + s }

/-- `seekp` also says whether the position is not behind the end. -/
def seekp (ds : Datastream) (p : UInt32) : Datastream × Bool :=
  ({ ds with pos := ds.start + p }, decide (ds.start + p ≤ ds.end_))

def tellp (ds : Datastream) : UInt32 := ds.pos - ds.start

def remaining (ds : Datastream) : UInt32 := ds.end_ - ds.pos

def valid (ds : Datastream) : Bool := decide (ds.pos ≤ ds.end_) && decide (ds.pos ≥ ds.start)

/-- `read` copies `s` bytes to `d`; `none` when its check fails. -/
def read (ds : Datastream) (mem : Mem) (d s : UInt32) : Option (Datastream × Mem) :=
  if ds.end_ - ds.pos ≥ s then
    some ({ ds with pos := ds.pos + s }, memcpy mem d ds.pos s)
  else none

/-- `write` copies `s` bytes from `d`. Its check compares the distance as `int32_t`. -/
def write (ds : Datastream) (mem : Mem) (d s : UInt32) : Option (Datastream × Mem) :=
  if s.toBitVec.sle (ds.end_ - ds.pos).toBitVec then
    some ({ ds with pos := ds.pos + s }, memcpy mem ds.pos d s)
  else none

def put (ds : Datastream) (mem : Mem) (c : UInt8) : Option (Datastream × Mem) :=
  if ds.pos < ds.end_ then some ({ ds with pos := ds.pos + 1 }, mem.store ds.pos c) else none

/-- `get` reads a byte to `c`. -/
def get (ds : Datastream) (mem : Mem) (c : UInt32) : Option (Datastream × Mem) :=
  if ds.pos < ds.end_ then some ({ ds with pos := ds.pos + 1 }, mem.store c (mem ds.pos)) else none

end Datastream

/-! ## Runs -/

/-- A call on a stream. -/
inductive StreamOp where
  | skip (s : UInt32)
  | seekp (p : UInt32)
  | read (d s : UInt32)
  | write (d s : UInt32)
  | put (c : UInt8)
  | get (c : UInt32)
deriving DecidableEq, Repr

/-- The bytes that a call reads or writes through the position. -/
structure Access where
  addr : UInt32
  size : UInt32
deriving DecidableEq, Repr

/-- The bytes that a successful call accesses. -/
def StreamOp.access (ds : Datastream) : StreamOp → Access
  | .skip _ | .seekp _ => ⟨ds.pos, 0⟩
  | .read _ s | .write _ s => ⟨ds.pos, s⟩
  | .put _ | .get _ => ⟨ds.pos, 1⟩

/-- One call; `none` when its check fails. -/
def StreamOp.call (ds : Datastream) (mem : Mem) : StreamOp → Option (Datastream × Mem)
  | .skip s => some (ds.skip s, mem)
  | .seekp p => some ((ds.seekp p).1, mem)
  | .read d s => ds.read mem d s
  | .write d s => ds.write mem d s
  | .put c => ds.put mem c
  | .get c => ds.get mem c

/-- The bytes accessed by a sequence of calls. A failed check leaves the stream as it is, and the
calls may go on behind it, as they do in the unit tests. -/
def accesses (ds : Datastream) (mem : Mem) : List StreamOp → List Access
  | [] => []
  | op :: ops =>
    match op.call ds mem with
    | some (ds', mem') => op.access ds :: accesses ds' mem' ops
    | none => accesses ds mem ops

end UosioCdt.Core
