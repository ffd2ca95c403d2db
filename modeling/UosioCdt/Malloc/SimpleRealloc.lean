import UosioCdt.Lib.Runs
import UosioCdt.Malloc.Memory
import UosioCdt.Malloc.SimpleMalloc

/-!
# `malloc`, `calloc`, `realloc` and `free` of the bump allocator

The functions of `simple_malloc.cpp` over the bytes of the memory, and the program that calls them.
The program writes into its blocks between the calls.
-/

namespace UosioCdt.Malloc

/-- `_dsmalloc` and the bytes of the memory. -/
structure SimpleHeap where
  bump : Bump
  mem : Mem

namespace SimpleHeap

/-- `malloc` -/
def malloc (s : SimpleHeap) (size : UInt32) (granted : Bool) : Option (UInt32 × SimpleHeap) := do
  let (ret, bump) ← s.bump.call size 8 granted
  return (ret, { s with bump })

/-- `calloc` -/
def calloc (s : SimpleHeap) (count size : UInt32) (granted : Bool) :
    Option (UInt32 × SimpleHeap) := do
  let (ptr, bump) ← s.bump.call (count * size) 8 granted
  if ptr ≠ 0 then return (ptr, ⟨bump, memset s.mem ptr.toNat 0 (count * size).toNat⟩)
  else return (0, { s with bump })

/-- `realloc`, which does not look at the pointer -/
def realloc (s : SimpleHeap) (_ptr size : UInt32) (granted : Bool) :
    Option (UInt32 × SimpleHeap) := do
  let (ret, bump) ← s.bump.call size 8 granted
  return (ret, { s with bump })

/-- `free` -/
def free (s : SimpleHeap) (_ptr : UInt32) : SimpleHeap := s

end SimpleHeap

/-! ## Runs -/

/-- What the program does. `granted` says whether the host grants pages then. -/
inductive SimpleOp where
  | malloc (size : UInt32) (granted : Bool)
  | calloc (count size : UInt32) (granted : Bool)
  | realloc (ptr size : UInt32) (granted : Bool)
  | free (ptr : UInt32)
  | write (addr : UInt32) (value : UInt8)

/-- The heap, the blocks that were returned, and those of them that are live. -/
structure SimpleRun where
  heap : SimpleHeap
  blocks : List Extent
  live : List Extent

namespace SimpleRun

def start (heapBase : UInt32) (pages : ℕ) (mem : Mem) : SimpleRun :=
  ⟨⟨Bump.start heapBase pages, mem⟩, [], []⟩

/-- The block of a call is live; a call for no byte returns none. -/
def push (s : SimpleRun) (ret size : UInt32) (heap : SimpleHeap) : SimpleRun :=
  if size = 0 then { s with heap }
  else ⟨heap, ⟨ret, size⟩ :: s.blocks, ⟨ret, size⟩ :: s.live⟩

/-- The block at `ptr` is not live any more. -/
def drop (s : SimpleRun) (ptr : UInt32) : SimpleRun :=
  { s with live := s.live.filter fun b => b.ptr ≠ ptr }

/-- One step, or `none` when the check fails. -/
def step (s : SimpleRun) : SimpleOp → Option SimpleRun
  | .malloc size granted => do
    let (ret, heap) ← s.heap.malloc size granted
    return s.push ret size heap
  | .calloc count size granted => do
    let (ret, heap) ← s.heap.calloc count size granted
    return s.push ret (count * size) heap
  | .realloc ptr size granted => do
    let (ret, heap) ← s.heap.realloc ptr size granted
    return (s.drop ptr).push ret size heap
  | .free ptr => some (({ s with heap := s.heap.free ptr }).drop ptr)
  | .write addr value =>
    some { s with heap := { s.heap with mem := fun a => if a = addr.toNat then value else s.heap.mem a } }

/-- `realloc(p, n)` of a live pointer with `m` bytes returns `n` bytes inside the memory, apart from
all blocks, and the first `min m n` of them are those of `p`. -/
def Preserves (s : SimpleRun) : SimpleOp → Prop
  | .realloc ptr size granted => ∀ m, ⟨ptr, m⟩ ∈ s.live →
    ∃ ret heap, s.heap.realloc ptr size granted = some (ret, heap) ∧
      ret.toNat + size.toNat ≤ heap.bump.pages * 65536 ∧
      (∀ b ∈ s.blocks,
        ret.toNat + size.toNat ≤ b.ptr.toNat ∨ b.ptr.toNat + b.size.toNat ≤ ret.toNat) ∧
      ∀ i < min m.toNat size.toNat, heap.mem (ret.toNat + i) = s.heap.mem (ptr.toNat + i)
  | _ => True

/-- The new block fits, and the bytes to preserve are zero. -/
def Fresh (s : SimpleRun) : SimpleOp → Prop
  | .realloc ptr size granted => ∀ m, ⟨ptr, m⟩ ∈ s.live → size = 0 ∨
    granted = true ∧ s.heap.bump.pages + size.toNat / 65536 < 65536 ∧
      s.heap.bump.dsmalloc.lastPtr.toNat + (size.toNat + 7) / 8 * 8 < 2 ^ 32 ∧
      ∀ i < min m.toNat size.toNat, s.heap.mem (ptr.toNat + i) = 0
  | _ => True

/-- The program writes into blocks only. -/
def Own (s : SimpleRun) : SimpleOp → Prop
  | .write addr _ => ∃ b ∈ s.blocks, b.ptr.toNat ≤ addr.toNat ∧
    addr.toNat < b.ptr.toNat + b.size.toNat
  | _ => True

/-- No call overruns the memory, but one of `realloc` for a live block, which may not fit. -/
def Within (s : SimpleRun) : SimpleOp → Prop
  | .malloc size granted => ¬ s.heap.bump.Overruns ⟨size, granted⟩
  | .calloc count size granted => ¬ s.heap.bump.Overruns ⟨count * size, granted⟩
  | .realloc ptr size granted =>
    (∃ m, ⟨ptr, m⟩ ∈ s.live) ∨ ¬ s.heap.bump.Overruns ⟨size, granted⟩
  | _ => True

end SimpleRun

end UosioCdt.Malloc
